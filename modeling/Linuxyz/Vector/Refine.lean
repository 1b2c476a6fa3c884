import Mathlib.Data.List.Nodup
import Mathlib.Data.List.Perm.Basic
import Linuxyz.Vector.Model

/-!
# Linuxyz.Vector.Refine

The vectors of `data-vector` are lists: whatever is pushed and erased, in any order,
a vector has the elements of the list, each string in a block of its own, and no
block is used after it was freed.

The loop of an erase passes three regions of the array: what stands before the index
stays, the string at the index is freed, and the pointers behind it move one slot
down, except that the last string goes into a new block.

Lengths and counts are `int`, so all of this holds for strings and vectors that are
short enough.
-/

namespace Linuxyz.Vector

open Option (map_some bind_some bind_eq_bind bind_eq_some_iff)

/-! ## Arrays -/

section Arrays

variable {α : Type} {h : Heap (List (Option α))} {a i : Nat} {xs : List α}

theorem getSlot_of_block (hb : h.block a = some slots) {x : α} (hx : slots[i]? = some (some x)) :
    getSlot h a i = some x := by
  simp only [getSlot, hb, hx, bind_eq_bind, bind_some, Option.join_some]

theorem setSlot_of_block (hb : h.block a = some slots) (hi : i < slots.length) (x : α) :
    ∃ h', setSlot h a i x = some h' ∧ h'.block a = some (slots.set i (some x)) := by
  obtain ⟨h', hstore, hblock⟩ := Heap.store_of_live hb (slots.set i (some x))
  exact ⟨h', by simp only [setSlot, hb, bind_eq_bind, bind_some, if_pos hi, hstore],
    hblock⟩

/-- A vector with one element more. -/
theorem grow_set (hcount : xs.length < intMax) {vec : Nat}
    (hb : xs ≠ [] → h.block vec = some (xs.map some)) (x : α) :
    ∃ h₁ vec' h', grow h vec xs.length = some (h₁, vec') ∧ setSlot h₁ vec' xs.length x = some h' ∧
      h'.block vec' = some ((xs ++ [x]).map some) := by
  have hgrow : ∃ h₁ vec', grow h vec xs.length = some (h₁, vec') ∧
      h₁.block vec' = some (xs.map some ++ [none]) := by
    rw [grow, if_neg (Nat.not_le.mpr hcount)]
    by_cases hempty : xs = []
    · exact ⟨_, _, if_pos (by rw [hempty]; rfl), by simp [hempty]⟩
    · rw [if_neg (mt List.length_eq_zero_iff.mp hempty)]
      obtain ⟨h₁, vec', hrealloc, hblock⟩ :=
        Heap.realloc_of_live (hb hempty) (resize (xs.length + 1))
      refine ⟨h₁, vec', hrealloc, hblock.trans ?_⟩
      rw [resize, List.take_of_length_le (by simp), List.length_map, Nat.add_sub_cancel_left]
      rfl
  obtain ⟨h₁, vec', hgrow, hblock⟩ := hgrow
  obtain ⟨h', hset, hblock'⟩ := setSlot_of_block (i := xs.length) hblock (by simp) x
  refine ⟨h₁, vec', h', hgrow, hset, hblock'.trans ?_⟩
  rw [List.set_append_right _ _ (by simp), List.length_map, Nat.sub_self, List.map_append]
  rfl

/-- When a vector grows, another one stays. -/
theorem block_of_grow {h' : Heap (List (Option α))} {vec vec' count b : Nat}
    {slots : List (Option α)} (hgrow : grow h vec count = some (h', vec'))
    (hb : count ≠ 0 → b ≠ vec) (hlive : h.block b = some slots) :
    h'.block b = some slots ∧ b ≠ vec' := by
  rw [grow] at hgrow
  split_ifs at hgrow with hmax hzero
  · cases hgrow
    exact ⟨Heap.block_malloc_of_live hlive _, Heap.ne_next_of_live hlive⟩
  · exact Heap.block_of_realloc hgrow (hb hzero) hlive

theorem block_of_setSlot {h' : Heap (List (Option α))} {b : Nat} {x : α}
    (hset : setSlot h a i x = some h') (hb : b ≠ a) : h'.block b = h.block b := by
  simp only [setSlot, bind_eq_bind, bind_eq_some_iff] at hset
  obtain ⟨slots, -, hset⟩ := hset
  split_ifs at hset
  exact Heap.block_of_store hset hb

/-- A vector with one element less, when the others are in the first slots. -/
theorem shrink_spec {vec count : Nat} (hb : h.block vec = some slots) (hlen : xs.length + 1 = count)
    (htake : slots.take xs.length = xs.map some) (hslots : slots.length = count) :
    ∃ h' vec', shrink h vec count = some (h', vec', if count = 1 then 1 else 0) ∧
      (xs ≠ [] → h'.block vec' = some (xs.map some)) := by
  subst hlen
  rw [shrink, Nat.add_sub_cancel]
  by_cases hempty : xs = []
  · subst hempty
    obtain ⟨h', hfree, -, -⟩ := Heap.free_of_live hb
    exact ⟨h', vec, by simp [hfree], fun hne => absurd rfl hne⟩
  · have hne := mt List.length_eq_zero_iff.mp hempty
    obtain ⟨h', vec', hrealloc, hblock⟩ := Heap.realloc_of_live hb (resize xs.length)
    refine ⟨h', vec', by simp [hne, hrealloc], fun _ => hblock.trans ?_⟩
    rw [resize, htake, hslots, Nat.sub_eq_zero_of_le (Nat.le_succ _), List.replicate_zero,
      List.append_nil]

/-- What is erased is not reported as an error. -/
theorem shrink_result {vec count vec' : Nat} {h' : Heap (List (Option α))} {r : Int}
    (hshrink : shrink h vec count = some (h', vec', r)) : 0 ≤ r := by
  rw [shrink] at hshrink
  split_ifs at hshrink
  · obtain ⟨h₁, -, heq⟩ := Option.map_eq_some_iff.mp hshrink
    cases heq
    decide
  · obtain ⟨⟨h₁, vec₁⟩, -, heq⟩ := Option.map_eq_some_iff.mp hshrink
    cases heq
    decide

/-- The slots after `k` turns of the loop of an erase: behind the index each element
has moved down, as far as the loop has come. -/
structure Moved (index k : Nat) (xs : List α) (slots : List (Option α)) : Prop where
  length : slots.length = xs.length
  slot : ∀ j : Nat, slots[j]? = (if index ≤ j ∧ j + 1 < k then xs[j + 1]? else xs[j]?).map some

theorem moved_start {index k : Nat} (hk : k ≤ index + 1) (xs : List α) :
    Moved index k xs (xs.map some) where
  length := List.length_map ..
  slot j := by rw [if_neg (by omega), List.getElem?_map]

theorem Moved.of_le {index k k' : Nat} {slots : List (Option α)} (h : Moved index k xs slots)
    (hk : k ≤ index + 1) (hk' : k' ≤ index + 1) : Moved index k' xs slots where
  length := h.length
  slot j := by rw [h.slot, if_neg (by omega), if_neg (by omega)]

/-- The element that is to move next is where it was. -/
theorem Moved.slot_self {index k : Nat} {slots : List (Option α)}
    (h : Moved index k xs slots) {x : α} (hx : xs[k]? = some x) : slots[k]? = some (some x) := by
  rw [h.slot, if_neg (by omega), hx, map_some]

/-- A turn behind the index moves one element down. -/
theorem Moved.succ {index k : Nat} {slots : List (Option α)} (h : Moved index k xs slots)
    (hk : index < k) {x : α} (hx : xs[k]? = some x) :
    Moved index (k + 1) xs (slots.set (k - 1) (some x)) where
  length := by rw [List.length_set, h.length]
  slot j := by
    have hlen := h.length
    have hlt : k < xs.length := (List.getElem?_eq_some_iff.mp hx).1
    rw [List.getElem?_set, h.slot]
    grind

/-- What the loop has passed is the list without the element at the index. -/
theorem Moved.take {index k : Nat} {slots : List (Option α)} (h : Moved index k xs slots)
    (hk : index < k) : slots.take (k - 1) = ((xs.eraseIdx index).take (k - 1)).map some := by
  apply List.ext_getElem?
  intro j
  rw [List.getElem?_take, List.getElem?_map, List.getElem?_take, List.getElem?_eraseIdx, h.slot]
  grind

end Arrays

/-! ## Integers -/

/-- The first `k` turns of the loop of an erase of integers. -/
theorem foldlM_shiftInt {h : Heap (List (Option Int32))} {vec k : Nat} {xs : List Int32}
    (hb : h.block vec = some (xs.map some)) (index : Nat) (hk : k ≤ xs.length) :
    ∃ h' slots, (List.range k).foldlM (shiftInt vec index) h = some h' ∧ h'.block vec = some slots ∧
      Moved index k xs slots := by
  induction k with
  | zero => exact ⟨h, xs.map some, rfl, hb, moved_start (Nat.zero_le _) xs⟩
  | succ k ih =>
      obtain ⟨h₁, slots, hfold, hblock, hmoved⟩ := ih (Nat.le_of_succ_le hk)
      rw [List.range_succ, List.foldlM_append, hfold]
      simp only [bind_eq_bind, bind_some, List.foldlM_cons, List.foldlM_nil,
        Option.pure_def, Option.bind_fun_some]
      by_cases hle : k ≤ index
      · exact ⟨h₁, slots, by rw [shiftInt, if_pos hle], hblock, hmoved.of_le (by omega) (by omega)⟩
      · have hx := List.getElem?_eq_getElem (Nat.lt_of_succ_le hk)
        obtain ⟨h', hset, hblock'⟩ :=
          setSlot_of_block (i := k - 1) hblock (by rw [hmoved.length]; omega) xs[k]
        refine ⟨h', _, ?_, hblock', hmoved.succ (Nat.not_le.mp hle) hx⟩
        rw [shiftInt, if_neg hle, getSlot_of_block hblock (hmoved.slot_self hx)]
        exact hset

theorem pushBackInt_spec {h : Heap (List (Option Int32))} {vec : Nat} {xs : List Int32}
    (hcount : xs.length < intMax) (hb : xs ≠ [] → h.block vec = some (xs.map some)) (x : Int32) :
    ∃ h' vec', pushBackInt h vec xs.length x = some (h', vec') ∧
      h'.block vec' = some ((xs ++ [x]).map some) := by
  obtain ⟨h₁, vec', h', hgrow, hset, hblock⟩ := grow_set hcount hb x
  refine ⟨h', vec', ?_, hblock⟩
  simp only [pushBackInt, hgrow, hset, bind_eq_bind, bind_some]

/-- The array has the elements of the list. -/
structure DenotesInts (v : Ints) (l : Spec Int32) : Prop where
  count : v.count = l.elems.length
  results : v.results = l.results
  slots : l.elems ≠ [] → v.heap.block v.vec = some (l.elems.map some)

theorem denotesInts_start : DenotesInts .start ⟨[], []⟩ := ⟨rfl, rfl, fun hne => absurd rfl hne⟩

/-- A push of integers does what it does to the list. -/
theorem DenotesInts.push {v : Ints} {l : Spec Int32} (h : DenotesInts v l)
    (hcount : v.count < intMax) (x : Int32) :
    ∃ v', ints.step v (.push x) = some v' ∧ DenotesInts v' (l.step (.push x)) := by
  rw [h.count] at hcount
  obtain ⟨h', vec', hpush, hblock⟩ := pushBackInt_spec hcount h.slots x
  refine ⟨⟨h', vec', v.count + 1, v.results ++ [0]⟩, ?_, ?_, ?_, fun _ => hblock⟩
  · simp only [ints, h.count, hpush, map_some]
  · simp only [Spec.step, h.count, List.length_append, List.length_singleton]
  · simp only [Spec.step, h.results]

/-- An erase of integers does what it does to the list, or reports its error. -/
theorem DenotesInts.erase {v : Ints} {l : Spec Int32} (h : DenotesInts v l) (index : Int) :
    ∃ v', ints.step v (.erase index) = some v' ∧ DenotesInts v' (l.step (.erase index)) := by
  by_cases hempty : l.elems = []
  · have hzero : v.count = 0 := by rw [h.count, hempty]; rfl
    refine ⟨⟨v.heap, v.vec, v.count, v.results ++ [-1]⟩, by simp [ints, eraseInt, hzero], ?_⟩
    rw [Spec.step, if_pos hempty]
    exact ⟨h.count, by rw [h.results], h.slots⟩
  have hne : l.elems.length ≠ 0 := mt List.length_eq_zero_iff.mp hempty
  by_cases hout : index ≥ l.elems.length ∨ index < 0
  · refine ⟨⟨v.heap, v.vec, v.count, v.results ++ [-2]⟩, ?_, ?_⟩
    · simp only [ints, eraseInt, h.count, if_neg hne, if_pos hout, map_some]
      rfl
    · rw [Spec.step, if_neg hempty, if_pos hout]
      exact ⟨h.count, by rw [h.results], h.slots⟩
  have hlt : index.toNat < l.elems.length := by omega
  have hlen : (l.elems.eraseIdx index.toNat).length + 1 = l.elems.length := by
    rw [List.length_eraseIdx_of_lt hlt]
    omega
  obtain ⟨h₁, slots, hfold, hblock, hmoved⟩ :=
    foldlM_shiftInt (h.slots hempty) index.toNat (Nat.le_refl _)
  have htake := hmoved.take hlt
  rw [← hlen, Nat.add_sub_cancel, List.take_length] at htake
  obtain ⟨h', vec', hshrink, hblock'⟩ := shrink_spec hblock hlen htake hmoved.length
  refine ⟨⟨h', vec', v.count - 1, v.results ++ [if l.elems.length = 1 then 1 else 0]⟩, ?_, ?_⟩
  · simp only [ints, eraseInt, h.count, if_neg hne, if_neg hout, hfold, hshrink,
      bind_eq_bind, bind_some, map_some]
    rw [if_neg (by split <;> decide)]
  · rw [Spec.step, if_neg hempty, if_neg hout]
    exact ⟨by simp only [h.count]; omega, by rw [h.results], hblock'⟩

/-! ## Strings -/

/-- The `int` and the size computed from it are right for what is short enough, and
for nothing else. -/
theorem copySize_iff (n : Nat) :
    (toSize (toInt n + 1) ≤ ptrdiffMax ∧ n < toSize (toInt n + 1)) ↔ n < 2 ^ 31 := by
  simp only [toSize, toInt, ptrdiffMax]
  split <;> omega

theorem copySize_of_lt {n : Nat} (h : n < 2 ^ 31) : toSize (toInt n + 1) = n + 1 := by
  simp only [toSize, toInt]
  split <;> omega

theorem toSize_toInt {n : Nat} (h : n < 2 ^ 31) : toSize (toInt n) = n := by
  simp only [toSize, toInt]
  split <;> omega

/-- The block has the string, with its terminator. -/
def Holds (strings : Heap (List UInt8)) (p : Nat) (s : CString) : Prop :=
  ∃ rest, strings.block p = some (s.bytes ++ 0 :: rest)

theorem readString_append (s : CString) (rest : List UInt8) :
    readString (s.bytes ++ 0 :: rest) = some s.bytes := by
  have hall : ∀ b ∈ s.bytes, (b ≠ 0) = true := fun b hb => by
    have hne : b ≠ 0 := fun hzero => s.noNul (hzero ▸ hb)
    simp [hne]
  rw [readString, if_pos (by simp), List.takeWhile_append_of_pos (by simpa using hall)]
  simp

/-- A copy leaves the strings that there are. -/
theorem Holds.of_copyString {strings strings' : Heap (List UInt8)} {p q size : Nat} {s : List UInt8}
    {t : CString} (h : Holds strings p t) (hcopy : copyString strings s size = some (strings', q)) :
    Holds strings' p t := by
  obtain ⟨rest, hp⟩ := h
  rw [copyString] at hcopy
  split_ifs at hcopy
  cases hcopy
  exact ⟨rest, Heap.block_malloc_of_live hp _⟩

/-- A copy with room for the terminator. -/
theorem copyString_spec (strings : Heap (List UInt8)) (s : CString)
    (hlen : s.bytes.length + 1 ≤ ptrdiffMax) :
    ∃ strings', copyString strings s.bytes (s.bytes.length + 1) = some (strings', strings.next) ∧
      Holds strings' strings.next s ∧ ∀ p t, Holds strings p t → Holds strings' p t := by
  have hcopy : copyString strings s.bytes (s.bytes.length + 1) = _ :=
    if_pos ⟨hlen, Nat.lt_succ_self _⟩
  refine ⟨_, hcopy, ⟨[], ?_⟩, fun p t h => h.of_copyString hcopy⟩
  rw [Heap.block_malloc_self, Nat.add_sub_cancel_left]
  rfl

/-- Freeing one block leaves the strings in others. -/
theorem Holds.of_free {strings strings' : Heap (List UInt8)} {p q : Nat} {s : CString}
    (h : Holds strings p s) (hne : p ≠ q)
    (hother : ∀ c, c ≠ q → strings'.block c = strings.block c) : Holds strings' p s := by
  obtain ⟨rest, hp⟩ := h
  exact ⟨rest, by rw [hother p hne, hp]⟩

/-- The slots have pointers to different blocks, which have the strings. -/
structure Owns (m : Mem) (vec : Nat) (cells : List (Nat × CString)) : Prop where
  slots : cells ≠ [] → m.arrays.block vec = some ((cells.map Prod.fst).map some)
  nodup : (cells.map Prod.fst).Nodup
  holds : ∀ c ∈ cells, Holds m.strings c.1 c.2

theorem owns_nil (m : Mem) (vec : Nat) : Owns m vec [] where
  slots hne := absurd rfl hne
  nodup := List.nodup_nil
  holds _ hc := absurd hc List.not_mem_nil

theorem Owns.ne_next {m : Mem} {vec : Nat} {cells : List (Nat × CString)} (h : Owns m vec cells) :
    m.strings.next ∉ cells.map Prod.fst := by
  intro hmem
  obtain ⟨c, hc, heq⟩ := List.mem_map.mp hmem
  obtain ⟨rest, hlive⟩ := h.holds c hc
  exact Heap.ne_next_of_live hlive heq

/-- A string is found through the pointer in its slot. -/
theorem Owns.getString {m : Mem} {vec i : Nat} {cells : List (Nat × CString)} (h : Owns m vec cells)
    {s : CString} (hs : (cells.map Prod.snd)[i]? = some s) :
    ∃ p, getSlot m.arrays vec i = some p ∧ Holds m.strings p s := by
  rw [List.getElem?_map] at hs
  obtain ⟨c, hc, rfl⟩ := Option.map_eq_some_iff.mp hs
  have hmem := List.mem_of_getElem? hc
  refine ⟨c.1, getSlot_of_block (h.slots (List.ne_nil_of_mem hmem)) ?_, h.holds c hmem⟩
  rw [List.getElem?_map, List.getElem?_map, hc]
  rfl

/-- A push of a string adds a copy of it behind the others. -/
theorem Owns.pushBackString {m : Mem} {vec : Nat} {cells : List (Nat × CString)}
    (h : Owns m vec cells) (hcount : cells.length < intMax) {s : CString}
    (hlen : s.bytes.length < 2 ^ 31) :
    ∃ m' vec', pushBackString m vec cells.length s.bytes = some (m', vec') ∧
      Owns m' vec' (cells ++ [(m.strings.next, s)]) := by
  rw [← List.length_map (f := Prod.fst)] at hcount ⊢
  obtain ⟨arrays₁, vec', arrays', hgrow, hset, hblock⟩ :=
    grow_set hcount (fun hne => h.slots (by simpa using hne)) m.strings.next
  obtain ⟨strings', hcopy, hnew, hold⟩ :=
    copyString_spec m.strings s (by simp only [ptrdiffMax]; omega)
  refine ⟨⟨arrays', strings'⟩, vec', ?_, fun _ => ?_, ?_, ?_⟩
  · simp only [Vector.pushBackString, hgrow, copySize_of_lt hlen, hcopy, hset, bind_eq_bind,
      bind_some]
  · simpa using hblock
  · rw [List.map_append]
    exact h.nodup.append (List.nodup_singleton _) (by simpa using h.ne_next)
  · exact List.forall_mem_append.mpr ⟨fun c hc => hold _ _ (h.holds c hc),
      List.forall_mem_singleton.mpr hnew⟩

/-- A push to another vector changes nothing. -/
theorem Owns.of_pushBackString {m m' : Mem} {vec vec₁ vec₁' rowc : Nat}
    {cells : List (Nat × CString)} {s : List UInt8} (h : Owns m vec cells)
    (hpush : Vector.pushBackString m vec₁ rowc s = some (m', vec₁'))
    (hne : cells ≠ [] → rowc ≠ 0 → vec ≠ vec₁) :
    Owns m' vec cells ∧ (cells ≠ [] → vec ≠ vec₁') := by
  simp only [Vector.pushBackString, bind_eq_bind, bind_eq_some_iff] at hpush
  obtain ⟨⟨arrays₁, vec'⟩, hgrow, ⟨strings', p⟩, hcopy, arrays', hset, heq⟩ := hpush
  cases heq
  refine ⟨⟨fun hcells => ?_, h.nodup, fun c hc => (h.holds c hc).of_copyString hcopy⟩,
    fun hcells => ?_⟩
  · obtain ⟨hblock, hvec⟩ := block_of_grow hgrow (hne hcells) (h.slots hcells)
    exact (block_of_setSlot hset hvec).trans hblock
  · exact (block_of_grow hgrow (hne hcells) (h.slots hcells)).2

/-- Nothing longer is pushed, and nothing to more elements. -/
theorem fits_of_pushBackString {m : Mem} {vec rowc : Nat} {s : List UInt8} {r : Mem × Nat}
    (h : pushBackString m vec rowc s = some r) : rowc < intMax ∧ s.length < 2 ^ 31 := by
  simp only [pushBackString, bind_eq_bind, bind_eq_some_iff] at h
  obtain ⟨g, hgrow, c, hcopy, -⟩ := h
  refine ⟨Nat.not_le.mp fun hle => ?_, (copySize_iff _).mp ?_⟩
  · rw [grow, if_pos hle] at hgrow
    exact absurd hgrow nofun
  · by_contra hlong
    rw [copyString, if_neg hlong] at hcopy
    exact absurd hcopy nofun

/-- The loop of an erase up to the last element: the string at the index is freed, and
the pointers behind it have moved. -/
theorem foldlM_eraseAt {m : Mem} {vec index k : Nat} {cells : List (Nat × CString)}
    (h : Owns m vec cells) {c : Nat × CString} (hc : cells[index]? = some c)
    (hk : k < cells.length) :
    ∃ m' slots, (List.range k).foldlM (eraseAt vec cells.length index) m = some m' ∧
      m'.arrays.block vec = some slots ∧ Moved index k (cells.map Prod.fst) slots ∧
      (k ≤ index → m'.strings = m.strings) ∧
      (index < k → ∀ p, p ≠ c.1 → m'.strings.block p = m.strings.block p) := by
  have hne : cells ≠ [] := List.ne_nil_of_length_pos (Nat.zero_lt_of_lt hk)
  induction k with
  | zero =>
      exact ⟨m, _, rfl, h.slots hne,
        moved_start (Nat.zero_le _) _, fun _ => rfl, fun hlt => by omega⟩
  | succ k ih =>
      obtain ⟨m₁, slots, hfold, hblock, hmoved, hsame, hfreed⟩ := ih (by omega)
      rw [List.range_succ, List.foldlM_append, hfold]
      simp only [bind_eq_bind, bind_some, List.foldlM_cons, List.foldlM_nil,
        Option.pure_def, Option.bind_fun_some]
      rcases Nat.lt_trichotomy k index with hlt | rfl | hgt
      · exact ⟨m₁, slots, by rw [eraseAt, if_pos hlt], hblock, hmoved.of_le (by omega) (by omega),
          fun _ => hsame (by omega), fun _ => by omega⟩
      · -- the string at the index
        have hptr : (cells.map Prod.fst)[k]? = some c.1 := by
          rw [List.getElem?_map, hc, map_some]
        obtain ⟨rest, hlive⟩ := h.holds c (List.mem_of_getElem? hc)
        obtain ⟨strings', hfree, -, hother⟩ := Heap.free_of_live hlive
        refine ⟨⟨m₁.arrays, strings'⟩, slots, ?_, hblock,
          hmoved.of_le (by omega) (by omega), fun _ => by omega, fun _ => hother⟩
        simp only [eraseAt, Nat.lt_irrefl, if_false,
          getSlot_of_block hblock (hmoved.slot_self hptr), if_true, hsame (Nat.le_refl _), hfree,
          bind_eq_bind, bind_some]
      · -- a pointer that moves
        have hptr :=
          List.getElem?_eq_getElem (l := cells.map Prod.fst) (i := k)
            (by rw [List.length_map]; omega)
        obtain ⟨arrays', hset, hblock'⟩ := setSlot_of_block (i := k - 1) hblock
          (by rw [hmoved.length, List.length_map]; omega) _
        refine ⟨⟨arrays', m₁.strings⟩, _, ?_, hblock',
          hmoved.succ hgt hptr, fun _ => by omega, fun _ => hfreed hgt⟩
        simp only [eraseAt, if_neg (Nat.lt_asymm hgt),
          getSlot_of_block hblock (hmoved.slot_self hptr), if_neg (Nat.ne_of_gt hgt),
          if_pos (show k ≠ cells.length - 1 by omega), hset, bind_eq_bind, bind_some]

/-- The pointer at an index is in no other slot. -/
theorem Owns.nodup_eraseIdx {m : Mem} {vec index : Nat} {cells : List (Nat × CString)}
    (h : Owns m vec cells) {c : Nat × CString} (hc : cells[index]? = some c) :
    (c.1 :: (cells.eraseIdx index).map Prod.fst).Nodup := by
  obtain ⟨hlt, rfl⟩ := List.getElem?_eq_some_iff.mp hc
  exact ((List.getElem_cons_eraseIdx_perm hlt).map Prod.fst).nodup_iff.mpr h.nodup

/-- The vector at the end of the loop: its strings are in all slots but the last. -/
structure OwnsFront (m : Mem) (vec : Nat) (cells : List (Nat × CString)) : Prop where
  slots : ∃ slots, m.arrays.block vec = some slots ∧ slots.length = cells.length + 1 ∧
    slots.take cells.length = (cells.map Prod.fst).map some
  nodup : (cells.map Prod.fst).Nodup
  holds : ∀ c ∈ cells, Holds m.strings c.1 c.2

section Erase

variable {m : Mem} {vec index n : Nat} {cells : List (Nat × CString)}

theorem foldlM_range_succ {β : Type} (f : β → Nat → Option β) (b : β) (n : Nat) :
    (List.range (n + 1)).foldlM f b = ((List.range n).foldlM f b).bind (f · n) := by
  simp [List.range_succ, List.foldlM_append]

theorem eraseIdx_eq_append {α : Type} {l : List α} {x : α} (hlen : l.length = n + 1)
    (hindex : index < n) (hlast : l[n]? = some x) :
    l.eraseIdx index = (l.eraseIdx index).take (n - 1) ++ [x] := by
  apply List.ext_getElem?
  intro j
  grind

theorem take_succ_set {α : Type} {l : List α} (h : n < l.length) (x : α) :
    (l.set n x).take (n + 1) = l.take n ++ [x] := by
  rw [List.take_add_one, List.getElem?_set_self h, List.take_set_of_le (Nat.le_refl n)]
  rfl

/-- The last string is the one that is erased. -/
theorem Owns.erase_last (h : Owns m vec cells) (hlen : cells.length = n + 1) :
    ∃ m', (List.range (n + 1)).foldlM (eraseAt vec (n + 1) n) m = some m' ∧
      OwnsFront m' vec (cells.eraseIdx n) := by
  have hlt : n < cells.length := by omega
  have hc := List.getElem?_eq_getElem hlt
  obtain ⟨m₁, slots, hfold, hblock, hmoved, hsame, -⟩ := foldlM_eraseAt h hc hlt
  have hnodup := h.nodup_eraseIdx hc
  obtain ⟨rest, hlive⟩ := h.holds _ (List.mem_of_getElem? hc)
  obtain ⟨strings', hfree, -, hother⟩ := Heap.free_of_live hlive
  have herased : (cells.eraseIdx n).length = n := by
    rw [List.length_eraseIdx_of_lt hlt, hlen, Nat.add_sub_cancel]
  have hptr : slots[n]? = some (some cells[n].1) :=
    hmoved.slot_self (by rw [List.getElem?_map, hc, map_some])
  refine ⟨⟨m₁.arrays, strings'⟩, ?_, ⟨slots, hblock, ?_, ?_⟩, hnodup.of_cons, fun c hmem => ?_⟩
  · rw [foldlM_range_succ, ← hlen, hfold, hlen]
    simp only [eraseAt, Nat.lt_irrefl, if_false, getSlot_of_block hblock hptr, if_true,
      hsame (Nat.le_refl _), hfree, bind_eq_bind, bind_some]
  · rw [hmoved.length, List.length_map, hlen, herased]
  · have htake := (hmoved.of_le (Nat.le_succ n) (Nat.le_refl _)).take (Nat.lt_succ_self n)
    rw [Nat.succ_sub_one, List.eraseIdx_map, ← List.map_take,
      List.take_of_length_le (Nat.le_of_eq herased)] at htake
    rw [herased, htake]
  · have hne : c.1 ≠ cells[n].1 :=
      fun heq => (List.nodup_cons.mp hnodup).1 (heq ▸ List.mem_map_of_mem hmem)
    exact (h.holds c (List.mem_of_mem_eraseIdx hmem)).of_free hne hother

/-- The last string goes into a new block. -/
theorem eraseAt_last {slots : List (Option Nat)} {p : Nat} {s : CString}
    (hblock : m.arrays.block vec = some slots) (hlen : slots.length = n + 1) (hindex : index < n)
    (hptr : slots[n]? = some (some p)) (hs : Holds m.strings p s)
    (hshort : s.bytes.length < intMax) :
    ∃ m', eraseAt vec (n + 1) index m n = some m' ∧
      m'.arrays.block vec = some (slots.set (n - 1) (some m.strings.next)) ∧
      Holds m'.strings m.strings.next s ∧
      ∀ q t, q ≠ p → Holds m.strings q t → Holds m'.strings q t := by
  rw [intMax] at hshort
  obtain ⟨strings₁, hcopy, hnew, hkeep⟩ :=
    copyString_spec m.strings s (by simp only [ptrdiffMax]; omega)
  obtain ⟨rest, hlive⟩ := id hs
  obtain ⟨rest₁, hlive₁⟩ := hkeep _ _ hs
  obtain ⟨strings', hfree, -, hother⟩ := Heap.free_of_live hlive₁
  obtain ⟨arrays', hset, hblock'⟩ := setSlot_of_block (i := n - 1) hblock (by omega) m.strings.next
  refine ⟨⟨arrays', strings'⟩, ?_, hblock', ?_, fun q t hne hq => (hkeep q t hq).of_free hne hother⟩
  · simp only [eraseAt, if_neg (Nat.lt_asymm hindex), getSlot_of_block hblock hptr,
      if_neg (Nat.ne_of_gt hindex), Nat.add_sub_cancel, ne_eq, not_true, if_false, hlive,
      readString_append, toSize_toInt (show s.bytes.length + 1 < 2 ^ 31 by omega), hcopy, hfree,
      hset, bind_eq_bind, bind_some]
  · exact hnew.of_free (Heap.ne_next_of_live hlive).symm hother

/-- The loop of an erase in front of the last element: the last string is copied, the
others are moved. -/
theorem Owns.erase_inner (h : Owns m vec cells) (hlen : cells.length = n + 1) (hindex : index < n)
    {last : Nat × CString} (hlast : cells[n]? = some last) (hshort : last.2.bytes.length < intMax) :
    ∃ m' q, (List.range (n + 1)).foldlM (eraseAt vec (n + 1) index) m = some m' ∧
      OwnsFront m' vec ((cells.eraseIdx index).take (n - 1) ++ [(q, last.2)]) := by
  have hlt : index < cells.length := by omega
  have hc := List.getElem?_eq_getElem hlt
  obtain ⟨m₁, slots, hfold, hblock, hmoved, -, hfreed⟩ :=
    foldlM_eraseAt h hc (show n < cells.length by omega)
  have hslots : slots.length = n + 1 := by rw [hmoved.length, List.length_map, hlen]
  have hsplit := eraseIdx_eq_append hlen hindex hlast
  have hnodup := h.nodup_eraseIdx hc
  rw [hsplit, List.map_append, List.map_singleton] at hnodup
  generalize hfront : (cells.eraseIdx index).take (n - 1) = front at *
  have hfrontLen : front.length = n - 1 := by
    rw [← hfront, List.length_take, List.length_eraseIdx_of_lt hlt]
    omega
  -- the pointers in front, and the last one, are not the freed one
  obtain ⟨hnotMem, hnodup⟩ := List.nodup_cons.mp hnodup
  have hholds : ∀ c ∈ front ++ [last], Holds m₁.strings c.1 c.2 := fun c hmem => by
    have hptr := List.mem_map_of_mem (f := Prod.fst) hmem
    rw [List.map_append, List.map_singleton] at hptr
    have hne : c.1 ≠ cells[index].1 := fun heq => hnotMem (heq ▸ hptr)
    exact (h.holds c (List.mem_of_mem_eraseIdx (hsplit ▸ hmem))).of_free hne (hfreed hindex)
  obtain ⟨hfrontHolds, hlastHolds⟩ := List.forall_mem_append.mp hholds
  have hlastHolds := hlastHolds last (List.mem_singleton_self last)
  obtain ⟨m', hstep, hblock', hnew, hkeep⟩ := eraseAt_last hblock hslots hindex
    (hmoved.slot_self (by rw [List.getElem?_map, hlast, map_some])) hlastHolds hshort
  refine ⟨m', m₁.strings.next, ?_, ⟨_, hblock', ?_, ?_⟩, ?_, ?_⟩
  · rw [foldlM_range_succ, ← hlen, hfold, hlen, bind_some, hstep]
  · rw [List.length_set, hslots, List.length_append, hfrontLen, List.length_singleton]
    omega
  · have htake := hmoved.take hindex
    rw [List.eraseIdx_map, ← List.map_take, hfront] at htake
    rw [List.length_append, List.length_singleton, hfrontLen, take_succ_set (by omega), htake,
      List.map_append, List.map_append]
    rfl
  · rw [List.map_append, List.map_singleton]
    refine (List.nodup_append.mp hnodup).1.append (List.nodup_singleton _)
      (List.disjoint_singleton.mpr fun hmem => ?_)
    obtain ⟨c, hc, heq⟩ := List.mem_map.mp hmem
    obtain ⟨rest, hlive⟩ := hfrontHolds c hc
    exact Heap.ne_next_of_live hlive heq
  · refine List.forall_mem_append.mpr ⟨fun c hmem => hkeep _ _ (fun heq => ?_) (hfrontHolds c hmem),
      List.forall_mem_singleton.mpr hnew⟩
    exact (List.nodup_append.mp hnodup).2.2 _ (List.mem_map_of_mem hmem) _
      (List.mem_singleton_self _) heq

theorem OwnsFront.shrink (h : OwnsFront m vec cells) :
    ∃ arrays' vec', shrink m.arrays vec (cells.length + 1) =
      some (arrays', vec', if cells.length + 1 = 1 then 1 else 0) ∧
      Owns ⟨arrays', m.strings⟩ vec' cells := by
  obtain ⟨slots, hblock, hlen, htake⟩ := h.slots
  obtain ⟨arrays', vec', hshrink, hblock'⟩ :=
    shrink_spec hblock (congrArg (· + 1) (List.length_map Prod.fst)) (by rwa [List.length_map]) hlen
  exact ⟨arrays', vec', hshrink, fun hne => hblock' (by simpa using hne), h.nodup, h.holds⟩

/-- An erase of a string inside of the vector leaves the others. -/
theorem Owns.eraseString (h : Owns m vec cells) {index : Int} (hpos : 0 ≤ index)
    (hindex : index < cells.length)
    (hshort : index + 1 < cells.length → ∀ c ∈ cells.getLast?, c.2.bytes.length < intMax) :
    ∃ m' vec' cells', eraseString m vec cells.length index =
      some (m', vec', if cells.length = 1 then 1 else 0) ∧
      Owns m' vec' cells' ∧ cells'.map Prod.snd = (cells.map Prod.snd).eraseIdx index.toNat := by
  obtain ⟨n, hn⟩ : ∃ n, cells.length = n + 1 := ⟨cells.length - 1, by omega⟩
  have hloop :
      ∃ m₁ cells', (List.range (n + 1)).foldlM (eraseAt vec (n + 1) index.toNat) m = some m₁ ∧
      OwnsFront m₁ vec cells' ∧ cells'.length = n ∧
      cells'.map Prod.snd = (cells.map Prod.snd).eraseIdx index.toNat := by
    have herased : (cells.eraseIdx index.toNat).length = n := by
      rw [List.length_eraseIdx_of_lt (by omega)]
      omega
    rcases Nat.lt_or_ge index.toNat n with hlt | hge
    · obtain ⟨last, hlast⟩ : ∃ last, cells[n]? = some last :=
        ⟨_, List.getElem?_eq_getElem (by omega)⟩
      have hsplit := eraseIdx_eq_append hn hlt hlast
      have hlen := congrArg List.length hsplit
      have hsnd := congrArg (List.map Prod.snd) hsplit
      obtain ⟨m₁, q, hfold, hfront⟩ := h.erase_inner hn hlt hlast
        (hshort (by omega) last (by rw [List.getLast?_eq_getElem?, hn]; exact hlast))
      refine ⟨m₁, _, hfold, hfront, ?_, ?_⟩
      · rw [List.length_append] at hlen ⊢
        exact hlen.symm.trans herased
      · rw [List.map_append] at hsnd ⊢
        rw [List.eraseIdx_map]
        exact hsnd.symm
    · obtain ⟨m₁, hfold, hfront⟩ := h.erase_last hn
      obtain heq : index.toNat = n := by omega
      rw [heq] at herased ⊢
      exact ⟨m₁, _, hfold, hfront, herased, (List.eraseIdx_map ..).symm⟩
  obtain ⟨m₁, cells', hfold, hfront, hlen, hsnd⟩ := hloop
  obtain ⟨arrays', vec', hshrink, howns⟩ := hfront.shrink
  rw [hlen] at hshrink
  refine ⟨_, vec', cells', ?_, howns, hsnd⟩
  have hne : n + 1 ≠ 0 := Nat.succ_ne_zero n
  have hout : ¬ (index ≥ (n + 1 : Nat) ∨ index < 0) := by omega
  simp only [Vector.eraseString, hn, if_neg hne, if_neg hout, hfold, hshrink, bind_eq_bind,
    bind_some]

end Erase

/-! ## Whole runs -/

/-- The string in the last slot. -/
def lastString (v : Strings) : Option (List UInt8) := do
  let p ← getSlot v.mem.arrays v.vec (v.rowc - 1)
  let block ← v.mem.strings.block p
  readString block

/-- Counts and lengths fit into an `int`: that of a string that is pushed, and that of
the last string with its terminator when it is to be copied. -/
def Fits (v : Strings) : Op CString → Prop
  | .push s => v.rowc < intMax ∧ s.bytes.length < 2 ^ 31
  | .erase index => 0 ≤ index → index + 1 < v.rowc → ∀ s ∈ lastString v, s.length < intMax

instance decidableFits (v : Strings) : (op : Op CString) → Decidable (Fits v op)
  | .push s => inferInstanceAs (Decidable (v.rowc < intMax ∧ s.bytes.length < 2 ^ 31))
  | .erase index =>
      inferInstanceAs (Decidable (0 ≤ index → index + 1 < v.rowc →
        ∀ s ∈ lastString v, s.length < intMax))

/-- The count of an integer vector fits into an `int`. -/
def FitsInt (v : Ints) : Op Int32 → Prop
  | .push _ => v.count < intMax
  | .erase _ => True

instance decidableFitsInt (v : Ints) : (op : Op Int32) → Decidable (FitsInt v op)
  | .push _ => inferInstanceAs (Decidable (v.count < intMax))
  | .erase _ => .isTrue trivial

/-- The vector has the strings of the list, each in a live block of its own. -/
structure DenotesStrings (v : Strings) (l : Spec CString) : Prop where
  rowc : v.rowc = l.elems.length
  results : v.results = l.results
  owns : ∃ cells, cells.map Prod.snd = l.elems ∧ Owns v.mem v.vec cells

theorem denotesStrings_start : DenotesStrings .start ⟨[], []⟩ :=
  ⟨rfl, rfl, [], rfl, owns_nil _ _⟩

/-- A push of strings does what it does to the list, if the string fits. -/
theorem DenotesStrings.push {v : Strings} {l : Spec CString} (h : DenotesStrings v l) {s : CString}
    (hfits : Fits v (.push s)) :
    ∃ v', strings.step v (.push s) = some v' ∧ DenotesStrings v' (l.step (.push s)) := by
  obtain ⟨cells, hsnd, howns⟩ := h.owns
  have hlen : cells.length = v.rowc := by rw [h.rowc, ← hsnd, List.length_map]
  obtain ⟨m', vec', hpush, howns'⟩ := howns.pushBackString (hlen ▸ hfits.1) hfits.2
  refine ⟨⟨m', vec', v.rowc + 1, v.results ++ [0]⟩, ?_, ?_, ?_, _, ?_, howns'⟩
  · simp only [strings, ← hlen, hpush, map_some]
  · simp only [Spec.step, h.rowc, List.length_append, List.length_singleton]
  · simp only [Spec.step, h.results]
  · rw [List.map_append, hsnd]
    rfl

/-- An erase of strings does what it does to the list, if the last string fits. -/
theorem DenotesStrings.erase {v : Strings} {l : Spec CString} (h : DenotesStrings v l) {index : Int}
    (hfits : Fits v (.erase index)) :
    ∃ v', strings.step v (.erase index) = some v' ∧ DenotesStrings v' (l.step (.erase index)) := by
  obtain ⟨cells, hsnd, howns⟩ := h.owns
  have hlen : cells.length = l.elems.length := by rw [← hsnd, List.length_map]
  by_cases hempty : l.elems = []
  · have hzero : v.rowc = 0 := by rw [h.rowc, hempty]; rfl
    refine ⟨⟨v.mem, v.vec, v.rowc, v.results ++ [-1]⟩, by simp [strings, eraseString, hzero], ?_⟩
    rw [Spec.step, if_pos hempty]
    exact ⟨h.rowc, by rw [h.results], h.owns⟩
  have hne : l.elems.length ≠ 0 := mt List.length_eq_zero_iff.mp hempty
  by_cases hout : index ≥ l.elems.length ∨ index < 0
  · refine ⟨⟨v.mem, v.vec, v.rowc, v.results ++ [-2]⟩, ?_, ?_⟩
    · simp only [strings, eraseString, h.rowc, if_neg hne, if_pos hout, map_some]
      rfl
    · rw [Spec.step, if_neg hempty, if_pos hout]
      exact ⟨h.rowc, by rw [h.results], h.owns⟩
  have hshort : index + 1 < cells.length → ∀ c ∈ cells.getLast?, c.2.bytes.length < intMax := by
    intro hlt c hc
    rw [List.getLast?_eq_getElem?, hlen, ← h.rowc] at hc
    obtain ⟨p, hslot, rest, hlive⟩ :=
      howns.getString (i := v.rowc - 1) (s := c.2) (by rw [List.getElem?_map, hc]; rfl)
    refine hfits (by omega) (by rw [h.rowc]; omega) c.2.bytes ?_
    simp only [lastString, hslot, hlive, readString_append, bind_eq_bind, bind_some,
      Option.mem_def]
  obtain ⟨m', vec', cells', herase, howns', hsnd'⟩ := howns.eraseString (by omega) (by omega) hshort
  refine ⟨⟨m', vec', v.rowc - 1, v.results ++ [if l.elems.length = 1 then 1 else 0]⟩, ?_, ?_⟩
  · rw [hlen] at herase
    simp only [strings, h.rowc, herase, map_some]
    rw [if_neg (by split <;> decide)]
  · rw [Spec.step, if_neg hempty, if_neg hout]
    refine ⟨?_, by rw [h.results], cells', by rw [hsnd', hsnd], howns'⟩
    simp only [h.rowc, List.length_eraseIdx_of_lt (show index.toNat < l.elems.length by omega)]

/-- An erase that reports an error leaves the vector as it is. -/
theorem strings_erase_error {v v' : Strings} {index r : Int}
    (h : strings.step v (.erase index) = some v') (hresults : v'.results = v.results ++ [r])
    (hr : r < 0) : v' = { v with results := v'.results } := by
  obtain ⟨⟨m, vec, r'⟩, herase, rfl⟩ := Option.map_eq_some_iff.mp h
  obtain rfl : r' = r := by simpa using hresults
  rw [eraseString] at herase
  split_ifs at herase with hzero hout
  · cases herase
    rfl
  · cases herase
    rfl
  · simp only [bind_eq_bind, bind_eq_some_iff] at herase
    obtain ⟨m₁, -, ⟨arrays, vec', r''⟩, hshrink, hr''⟩ := herase
    cases hr''
    exact absurd hr (Int.not_lt.mpr (shrink_result hshrink))

/-- An erase of integers that fails changes nothing but the results. -/
theorem ints_erase_error {v v' : Ints} {index r : Int} (h : ints.step v (.erase index) = some v')
    (hresults : v'.results = v.results ++ [r]) (hr : r < 0) :
    v' = { v with results := v'.results } := by
  obtain ⟨⟨heap, vec, r'⟩, herase, rfl⟩ := Option.map_eq_some_iff.mp h
  obtain rfl : r' = r := by simpa using hresults
  rw [eraseInt] at herase
  split_ifs at herase with hzero hout
  · cases herase
    rfl
  · cases herase
    rfl
  · simp only [bind_eq_bind, bind_eq_some_iff] at herase
    obtain ⟨heap₁, -, hshrink⟩ := herase
    exact absurd hr (Int.not_lt.mpr (shrink_result hshrink))

/-- **Vectors are lists.**  A sequence of pushes and erases in which counts and lengths
fit into an `int` goes through: no block is freed twice and none is used after it was
freed.  The vector then has the elements of the list that results from appending and
removing, every string in a live block of its own, and the results are those of the
list.  An erase that reports an error changes nothing. -/
theorem vectors_refine_lists_of_fits (ops : List (Op CString)) (opsInt : List (Op Int32))
    (hops : strings.Meets Fits .start ops) (hopsInt : ints.Meets FitsInt .start opsInt) :
    (∃ v, strings.run .start ops = some v ∧ DenotesStrings v (Spec.run ops)) ∧
    (∃ v, ints.run .start opsInt = some v ∧ DenotesInts v (Spec.run opsInt)) ∧
    (∀ v v' index r, strings.step v (.erase index) = some v' →
      v'.results = v.results ++ [r] → r < 0 → v' = { v with results := v'.results }) ∧
    ∀ v v' index r, ints.step v (.erase index) = some v' → v'.results = v.results ++ [r] → r < 0 →
      v' = { v with results := v'.results } := by
  refine ⟨hops.refines (fun v l op h hfits => ?_) denotesStrings_start,
    hopsInt.refines (fun v l op h hfits => ?_) denotesInts_start,
    fun v v' index r => strings_erase_error, fun v v' index r => ints_erase_error⟩
  · cases op with
    | push s => exact h.push hfits
    | erase index => exact h.erase hfits
  · cases op with
    | push x => exact h.push hfits x
    | erase index => exact h.erase index

/-- Vectors that are emptied and filled again. -/
theorem vectors_refine_lists_refilled :
    (∃ v, strings.run .start [.push ⟨[97], by decide⟩, .push ⟨[98, 99], by decide⟩,
      .push ⟨[], by decide⟩, .erase 0,
        .erase 5, .erase 1, .erase 0, .erase 0, .push ⟨[100], by decide⟩] = some v ∧
      DenotesStrings v ⟨[⟨[100], by decide⟩], [0, 0, 0, 0, -2, 0, 1, -1, 0]⟩) ∧
    ∃ v, ints.run .start [.push 1, .push 2, .erase 0, .erase 0, .erase (-1), .push 3] = some v ∧
      DenotesInts v ⟨[3], [0, 0, 0, 1, -1, 0]⟩ := by
  obtain ⟨hstrings, hints, -, -⟩ := vectors_refine_lists_of_fits
    [.push ⟨[97], by decide⟩, .push ⟨[98, 99], by decide⟩, .push ⟨[], by decide⟩, .erase 0,
      .erase 5, .erase 1, .erase 0, .erase 0, .push ⟨[100], by decide⟩]
    [.push 1, .push 2, .erase 0, .erase 0, .erase (-1),
      .push 3] (by decide +kernel) (by decide +kernel)
  exact ⟨hstrings, hints⟩

/-- There are strings of every length. -/
theorem exists_cString_replicate (n : Nat) : ∃ s : CString, s.bytes = List.replicate n 65 :=
  ⟨⟨List.replicate n 65, fun hmem => absurd (List.eq_of_mem_replicate hmem) (by decide)⟩, rfl⟩

/-- A string of `2 ^ 32` bytes gets a block of one byte. -/
theorem vectors_overflow : ∃ s : CString, s.bytes.length = 2 ^ 32 ∧
      strings.run .start [.push s] = none := by
  obtain ⟨s, hs⟩ := exists_cString_replicate (2 ^ 32)
  have hlong : s.bytes.length = 2 ^ 32 := by rw [hs, List.length_replicate]
  refine ⟨s, hlong, ?_⟩
  rw [System.run_cons, Option.bind_eq_none_iff]
  intro v hstep
  obtain ⟨r, hpush, -⟩ := Option.map_eq_some_iff.mp hstep
  have hlen := (fits_of_pushBackString hpush).2
  omega

end Linuxyz.Vector
