import Linuxyz.Lib.RingIndex

/-!
# Linuxyz.Lib.Probe

Linear probing with wraparound: from a start slot, one slot after the other and
around the end of the table, until a slot passes a test or the start is reached
again.

`probeAll_spec` is the whole behaviour of the loop: it ends within one turn around
the table, at a slot that passes, and it gives up exactly when no slot of the
table does.
-/

namespace Linuxyz

variable {α : Type}

/-- The slot after `idx` in a table of `n` slots. -/
def nextSlot (n idx : Nat) : Nat := if idx + 1 = n then 0 else idx + 1

/-- The probe loop on `table` from `idx`, for at most `turns` turns: `some (some i)`
is a slot that passes `stop`, `some none` is a loop that came back to `start`,
and `none` is a loop that has not ended yet or left the table. -/
def probe (stop : α → Bool) (table : List α) (start : Nat) : Nat → Nat → Option (Option Nat)
  | 0, _ => none
  | turns + 1, idx =>
      match table[idx]? with
      | none => none
      | some x =>
          if stop x then some (some idx)
          else if nextSlot table.length idx = start then some none
          else probe stop table start turns (nextSlot table.length idx)

/-- The whole loop, with one turn for each slot of the table. -/
def probeAll (stop : α → Bool) (table : List α) (start : Nat) : Option (Option Nat) :=
  probe stop table start table.length start

/-- After `k` slots from `start`, the next slot is the one of `k + 1`. -/
theorem nextSlot_mod {n start : Nat} (k : Nat) (hstart : start < n) :
    nextSlot n ((start + k) % n) = (start + (k + 1)) % n := by
  have hlt : (start + k) % n < n := Nat.mod_lt _ (by omega)
  have hsucc : (start + (k + 1)) % n = ((start + k) % n + 1) % n := by
    rw [← Nat.add_assoc, Nat.mod_add_mod]
  rw [nextSlot, hsucc]
  split
  · next h => rw [h, Nat.mod_self]
  · next h => exact (Nat.mod_eq_of_lt (by omega)).symm

/-- The loop is back at its start after one turn around the table, not before. -/
theorem mod_eq_start_iff {n start k : Nat} (hstart : start < n) (hk : k < n) :
    (start + (k + 1)) % n = start ↔ k + 1 = n := by
  constructor
  · intro h
    by_contra hne
    have hmod : (start + (k + 1)) % n = start % n := by rw [h, Nat.mod_eq_of_lt hstart]
    have := RingIndex.slot_inj (a := start) (by omega) (by omega) (by omega) (by omega) hmod
    omega
  · intro h
    rw [h, Nat.add_mod_right, Nat.mod_eq_of_lt hstart]

/-- The probe loop that has passed `k` slots without a match, with as many turns
left as there are slots left. -/
theorem probe_from (stop : α → Bool) {table : List α} {start : Nat}
    (hstart : start < table.length) :
    ∀ turns k, k + turns = table.length → 0 < turns →
      (∃ i x, probe stop table start turns ((start + k) % table.length) = some (some i) ∧
        table[i]? = some x ∧ stop x = true) ∨
      (probe stop table start turns ((start + k) % table.length) = some none ∧
        ∀ j, k ≤ j → j < table.length → ∀ x, table[(start + j) % table.length]? = some x →
          stop x = false)
  | 0, _, _, h => absurd h (Nat.lt_irrefl 0)
  | turns + 1, k, hk, _ => by
      have hidx : (start + k) % table.length < table.length := Nat.mod_lt _ (by omega)
      have hx : table[(start + k) % table.length]? = some table[(start + k) % table.length] :=
        List.getElem?_eq_getElem hidx
      rw [probe, hx]
      by_cases hstop : stop table[(start + k) % table.length] = true
      · simp only [hstop, if_true]
        exact .inl ⟨_, _, rfl, hx, hstop⟩
      · have hmiss : ∀ j, j = k → ∀ x, table[(start + j) % table.length]? = some x →
            stop x = false := by
          rintro j rfl x hj
          rw [hx, Option.some.injEq] at hj
          rw [← hj]
          exact Bool.eq_false_iff.mpr hstop
        simp only [hstop, Bool.false_eq_true, if_false, nextSlot_mod k hstart,
          mod_eq_start_iff hstart (show k < table.length by omega)]
        by_cases hlast : k + 1 = table.length
        · rw [if_pos hlast]
          exact .inr ⟨rfl, fun j hj hlt => hmiss j (by omega)⟩
        · rw [if_neg hlast]
          rcases probe_from stop hstart turns (k + 1) (by omega) (by omega) with hfound |
            ⟨hnone, hall⟩
          · exact .inl hfound
          · refine .inr ⟨hnone, fun j hj hlt => ?_⟩
            by_cases hjk : j = k
            · exact hmiss j hjk
            · exact hall j (by omega) hlt

/-- From a slot of the table the loop ends within one turn around it: at a slot
that passes, or with the knowledge that no slot does. -/
theorem probeAll_spec (stop : α → Bool) {table : List α} {start : Nat}
    (hstart : start < table.length) :
    (∃ i x, probeAll stop table start = some (some i) ∧ table[i]? = some x ∧ stop x = true) ∨
      (probeAll stop table start = some none ∧ ∀ x ∈ table, stop x = false) := by
  have h := probe_from stop hstart table.length 0 (by omega) (by omega)
  rw [Nat.add_zero, Nat.mod_eq_of_lt hstart, ← probeAll] at h
  rcases h with hfound | ⟨hnone, hall⟩
  · exact .inl hfound
  · refine .inr ⟨hnone, fun x hx => ?_⟩
    obtain ⟨i, hi⟩ := List.mem_iff_getElem?.mp hx
    obtain ⟨j, hj, hlt, hji⟩ := RingIndex.exists_slot start (List.getElem?_eq_some_iff.mp hi).1
    have hslot : (start + (j - start)) % table.length = i := by rw [Nat.add_sub_cancel' hj, hji]
    exact hall (j - start) (by omega) (by omega) x (by rw [hslot, hi])

end Linuxyz
