import Mathlib.Data.Nat.ModEq

/-!
# Linuxyz.Lib.RingIndex

Slot arithmetic of ring buffers indexed by free-running counters.

A counter that only ever grows selects slot `i % n` of a ring of `n` slots;
`slot_inj` says that a window of at most `n` counter values never maps two of
them to one slot.  A machine counter of `w` bits that wraps around still
selects the same slot when `n` divides `2 ^ w` (`wrap_mod`), and then only: the
slots of a counter modulo `m` follow each other around the ring up to the first
wrap, and beyond it exactly when `n` divides `m` (`consecutive_wrappedSlot_iff`).
-/

namespace Linuxyz.RingIndex

/-- Inside a window of `n` counter values the slot determines the counter. -/
theorem slot_inj {a i j n : Nat} (hi : a ≤ i) (hi' : i < a + n) (hj : a ≤ j) (hj' : j < a + n)
    (h : i % n = j % n) : i = j := by
  rcases Nat.le_total i j with hij | hji
  · have hd : n ∣ j - i := (Nat.modEq_iff_dvd' hij).mp h
    have hz := Nat.eq_zero_of_dvd_of_lt hd (by omega)
    omega
  · have hd : n ∣ i - j := (Nat.modEq_iff_dvd' hji).mp h.symm
    have hz := Nat.eq_zero_of_dvd_of_lt hd (by omega)
    omega

/-- A full window comes back to the slot it started from. -/
theorem slot_add_size (a n : Nat) : (a + n) % n = a % n := Nat.add_mod_right a n

/-- A full window visits every slot. -/
theorem exists_slot {i n : Nat} (a : Nat) (hi : i < n) : ∃ j, a ≤ j ∧ j < a + n ∧ j % n = i := by
  induction a with
  | zero => exact ⟨i, by omega, by omega, Nat.mod_eq_of_lt hi⟩
  | succ a ih =>
      obtain ⟨j, hj, hj', hji⟩ := ih
      by_cases hja : j = a
      · -- the slot that drops out of the window comes back at its far end
        exact ⟨a + n, by omega, by omega, by rw [slot_add_size, ← hja, hji]⟩
      · exact ⟨j, by omega, by omega, hji⟩

/-- Wrapping a counter at a multiple of the ring size keeps its slot. -/
theorem wrap_mod {c m n : Nat} (h : n ∣ m) : c % m % n = c % n := Nat.mod_mod_of_dvd c h

/-- A 32-bit counter selects the slot of the unbounded one when the ring size
divides `2 ^ 32`. -/
theorem toNat_ofNat_mod {n : Nat} (h : n ∣ 2 ^ 32) (c : Nat) :
    (UInt32.ofNat c).toNat % n = c % n := by
  rw [UInt32.toNat_ofNat']
  exact wrap_mod h

/-- Advancing the machine counter advances the unbounded one. -/
theorem ofNat_succ (c : Nat) : UInt32.ofNat c + 1 = UInt32.ofNat (c + 1) := by
  rw [UInt32.ofNat_add]
  rfl

/-! ## counters that wrap around -/

/-- The slot of a ring of `n` slots that a counter modulo `m` selects when it has been
advanced `i` times. -/
def wrappedSlot (m n i : Nat) : Nat := i % m % n

/-- Each slot of the list is the one behind its predecessor on a ring of `n` slots. -/
def Consecutive (n : Nat) (l : List Nat) : Prop :=
  ∀ i a b, l[i]? = some a → l[i + 1]? = some b → b = (a + 1) % n

theorem wrappedSlot_succ {m n i : Nat} (h : n ∣ m ∨ i + 1 < m) :
    wrappedSlot m n (i + 1) = (wrappedSlot m n i + 1) % n := by
  rw [wrappedSlot, wrappedSlot]
  rcases h with hdvd | hlt
  · rw [wrap_mod hdvd, wrap_mod hdvd, Nat.mod_add_mod]
  · rw [Nat.mod_eq_of_lt hlt, Nat.mod_eq_of_lt (Nat.lt_of_succ_lt hlt), Nat.mod_add_mod]

/-- The step over the wrap. -/
theorem dvd_of_wrappedSlot {m n : Nat} (hm : 0 < m)
    (h : wrappedSlot m n m = (wrappedSlot m n (m - 1) + 1) % n) : n ∣ m := by
  have hlast : m - 1 < m := Nat.sub_lt hm Nat.one_pos
  rw [wrappedSlot, wrappedSlot, Nat.mod_self, Nat.zero_mod, Nat.mod_add_mod, Nat.mod_eq_of_lt hlast,
    Nat.sub_add_cancel hm] at h
  exact Nat.dvd_of_mod_eq_zero h.symm

/-- The slots are consecutive exactly if the size divides the range of the counter, or
it does not wrap. -/
theorem consecutive_wrappedSlot_iff {m n k : Nat} (hm : 0 < m) :
    Consecutive n ((List.range k).map (wrappedSlot m n)) ↔ n ∣ m ∨ k ≤ m := by
  constructor
  · intro h
    by_cases hk : k ≤ m
    · exact .inr hk
    · have hlast :
          ((List.range k).map (wrappedSlot m n))[m - 1]? = some (wrappedSlot m n (m - 1)) := by
        rw [List.getElem?_map, List.getElem?_range (by omega), Option.map_some]
      have hfirst :
          ((List.range k).map (wrappedSlot m n))[m - 1 + 1]? = some (wrappedSlot m n m) := by
        rw [Nat.sub_add_cancel hm, List.getElem?_map, List.getElem?_range (by omega),
          Option.map_some]
      exact .inl (dvd_of_wrappedSlot hm (h _ _ _ hlast hfirst))
  · intro h i a b ha hb
    obtain ⟨hi, rfl⟩ := List.getElem?_eq_some_iff.mp ha
    obtain ⟨hi', rfl⟩ := List.getElem?_eq_some_iff.mp hb
    rw [List.length_map, List.length_range] at hi'
    rw [List.getElem_map, List.getElem_map, List.getElem_range, List.getElem_range]
    exact wrappedSlot_succ (h.imp_right fun hk => by omega)

end Linuxyz.RingIndex
