import Mathlib.Data.List.Perm.Basic
import Mathlib.Logic.Function.Basic

/-!
# Linuxyz.Lib.Heap

A heap of blocks with manual deallocation.

A block is known by its address, and an address is never handed out twice: a
pointer to a block that was freed stays recognisable, so that a second `free`
and an access through it are faults (`none`).  Addresses from `next` on were not
handed out yet; the field `fresh` keeps them empty.
-/

namespace Linuxyz

/-- The live blocks by address. -/
structure Heap (β : Type) where
  block : Nat → Option β
  next : Nat
  fresh : ∀ a, next ≤ a → block a = none

namespace Heap

variable {β : Type}

def empty : Heap β := ⟨fun _ => none, 0, fun _ _ => rfl⟩

/-- `malloc` of a block with content `b`: its address is `h.next`. -/
def malloc (h : Heap β) (b : β) : Heap β where
  block := Function.update h.block h.next (some b)
  next := h.next + 1
  fresh a ha := by
    rw [Function.update_of_ne (by omega)]
    exact h.fresh a (by omega)

/-- `free`; the block has to be live. -/
def free (h : Heap β) (a : Nat) : Option (Heap β) :=
  (h.block a).map fun _ =>
    { block := Function.update h.block a none
      next := h.next
      fresh := fun b hb => by
        rw [Function.update_apply]
        split
        · rfl
        · exact h.fresh b hb }

/-- Replace the content of a live block. -/
def store (h : Heap β) (a : Nat) (b : β) : Option (Heap β) :=
  match hlive : h.block a with
  | none => none
  | some _ =>
      some
        { block := Function.update h.block a (some b)
          next := h.next
          fresh := fun c hc => by
            have hne : c ≠ a := by
              rintro rfl
              rw [h.fresh c hc] at hlive
              cases hlive
            rw [Function.update_of_ne hne]
            exact h.fresh c hc }

/-- `realloc`: a new block made from the old one, which is freed. -/
def realloc (h : Heap β) (a : Nat) (f : β → β) : Option (Heap β × Nat) := do
  let b ← h.block a
  let h ← h.free a
  some (h.malloc (f b), h.next)

@[simp] theorem block_malloc_self (h : Heap β) (b : β) : (h.malloc b).block h.next = some b :=
  Function.update_self ..

variable {a : Nat}

theorem block_malloc_of_ne (h : Heap β) (b : β) (ha : a ≠ h.next) :
    (h.malloc b).block a = h.block a :=
  Function.update_of_ne ha ..

variable {h : Heap β} {b : β}

/-- A live block is not where the next one will be. -/
theorem ne_next_of_live (hlive : h.block a = some b) : a ≠ h.next := by
  rintro rfl
  rw [h.fresh _ (Nat.le_refl _)] at hlive
  cases hlive

theorem block_malloc_of_live (hlive : h.block a = some b) (c : β) :
    (h.malloc c).block a = some b := by
  rw [block_malloc_of_ne h c (ne_next_of_live hlive), hlive]

/-- A live block can be freed, and no other is touched. -/
theorem free_of_live (hlive : h.block a = some b) :
    ∃ h', h.free a = some h' ∧ h'.next = h.next ∧ ∀ c, c ≠ a → h'.block c = h.block c := by
  rw [free, hlive]
  exact ⟨_, rfl, rfl, fun c hc => Function.update_of_ne hc ..⟩

variable {h' : Heap β}

/-- A block that was freed is not live. -/
theorem block_of_free (hfree : h.free a = some h') : h'.block a = none := by
  obtain ⟨b, -, rfl⟩ := Option.map_eq_some_iff.mp hfree
  exact Function.update_self ..

/-- What is live after a `free` was so before. -/
theorem live_of_free {c : Nat} (hfree : h.free a = some h') (hlive : h'.block c = some b) :
    h.block c = some b := by
  have hc : c ≠ a := by
    rintro rfl
    rw [block_of_free hfree] at hlive
    cases hlive
  obtain ⟨b₀, -, rfl⟩ := Option.map_eq_some_iff.mp hfree
  exact (Function.update_of_ne hc ..).symm.trans hlive

/-- Freeing one block, and then those of a list. -/
theorem block_of_free_cons (hfree : h.free a = some h') (l : List Nat) (c : Nat) :
    (if c ∈ l then none else h'.block c) = if c ∈ a :: l then none else h.block c := by
  by_cases hc : c = a
  · rw [hc, block_of_free hfree, ite_self, if_pos List.mem_cons_self]
  · obtain ⟨b, hlive, -⟩ := Option.map_eq_some_iff.mp hfree
    obtain ⟨h₁, hfree₁, -, hother⟩ := free_of_live hlive
    obtain rfl : h₁ = h' := Option.some.inj (hfree₁.symm.trans hfree)
    rw [hother c hc]
    simp [hc]

theorem store_of_live (hlive : h.block a = some b) (c : β) :
    ∃ h', h.store a c = some h' ∧ h'.block a = some c := by
  rw [store]
  split
  · next hnone => rw [hnone] at hlive; cases hlive
  · exact ⟨_, rfl, Function.update_self ..⟩

theorem realloc_of_live (hlive : h.block a = some b) (f : β → β) :
    ∃ h' a', h.realloc a f = some (h', a') ∧ h'.block a' = some (f b) := by
  obtain ⟨h', hfree, -, -⟩ := free_of_live hlive
  exact ⟨h'.malloc (f b), h'.next, by simp [realloc, hlive, hfree], by simp⟩

/-- A store to one block leaves the others. -/
theorem block_of_store {c : Nat} (hstore : h.store a b = some h') (hc : c ≠ a) :
    h'.block c = h.block c := by
  rw [store] at hstore
  split at hstore
  · cases hstore
  · cases hstore
    exact Function.update_of_ne hc ..

/-- A live block stays where it is when another one is reallocated, and is not where
that one goes. -/
theorem block_of_realloc {a' c : Nat} {f : β → β} (hrealloc : h.realloc a f = some (h', a'))
    (hc : c ≠ a) (hlive : h.block c = some b) : h'.block c = some b ∧ c ≠ a' := by
  simp only [realloc, Option.bind_eq_bind, Option.bind_eq_some_iff] at hrealloc
  obtain ⟨b₀, hlive₀, h₁, hfree, heq⟩ := hrealloc
  obtain ⟨h₂, hfree₂, -, hother⟩ := free_of_live hlive₀
  obtain rfl : h₂ = h₁ := Option.some.inj (hfree₂.symm.trans hfree)
  cases heq
  rw [← hother c hc] at hlive
  exact ⟨block_malloc_of_live hlive _, ne_next_of_live hlive⟩

/-! ## who has which block -/

/-- The live blocks are those at the addresses of `l`, each of which occurs once. -/
structure Owns (h : Heap β) (l : List Nat) : Prop where
  nodup : l.Nodup
  live : ∀ a, a ∈ l ↔ ∃ b, h.block a = some b

variable {l : List Nat}

theorem Owns.perm {l' : List Nat} (hown : Owns h l) (hperm : l.Perm l') : Owns h l' :=
  ⟨hperm.nodup_iff.mp hown.nodup, fun a => hperm.symm.mem_iff.trans (hown.live a)⟩

/-- A new block is owned as well. -/
theorem Owns.malloc (hown : Owns h l) (b : β) : Owns (h.malloc b) (h.next :: l) where
  nodup := by
    refine List.nodup_cons.mpr ⟨fun hmem => ?_, hown.nodup⟩
    obtain ⟨b, hlive⟩ := (hown.live _).mp hmem
    exact ne_next_of_live hlive rfl
  live a := by
    by_cases ha : a = h.next
    · simp [ha]
    · rw [List.mem_cons, block_malloc_of_ne h b ha, ← hown.live a]
      simp [ha]

/-- The owner of a block can free it. -/
theorem Owns.free (hown : Owns h (a :: l)) :
    ∃ h', h.free a = some h' ∧ Owns h' l ∧ ∀ c, c ≠ a → h'.block c = h.block c := by
  obtain ⟨b, hlive⟩ := (hown.live a).mp List.mem_cons_self
  obtain ⟨h', hfree, -, hother⟩ := free_of_live hlive
  obtain ⟨hnot, hnodup⟩ := List.nodup_cons.mp hown.nodup
  refine ⟨h', hfree, ⟨hnodup, fun c => ?_⟩, hother⟩
  by_cases hc : c = a
  · rw [hc, block_of_free hfree]
    exact iff_of_false hnot fun ⟨b, hb⟩ => by cases hb
  · rw [hother c hc, ← hown.live c, List.mem_cons]
    simp [hc]

/-- A store changes nothing about who owns what. -/
theorem Owns.store (hown : Owns h l) (hstore : h.store a b = some h') : Owns h' l := by
  refine ⟨hown.nodup, fun c => (hown.live c).trans ?_⟩
  by_cases hc : c = a
  · have hlive : ∃ b, h.block a = some b := by
      rw [Heap.store] at hstore
      split at hstore
      · cases hstore
      · next b hb => exact ⟨b, hb⟩
    obtain ⟨b₀, hlive⟩ := hlive
    obtain ⟨h₁, hstore₁, hb⟩ := store_of_live hlive b
    obtain rfl : h₁ = h' := Option.some.inj (hstore₁.symm.trans hstore)
    rw [hc]
    exact iff_of_true ⟨_, hlive⟩ ⟨_, hb⟩
  · rw [block_of_store hstore hc]

end Heap

end Linuxyz
