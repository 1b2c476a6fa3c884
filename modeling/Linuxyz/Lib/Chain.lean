import Mathlib.Data.List.Nodup
import Mathlib.Data.List.Perm.Subperm
import Mathlib.Logic.Function.Basic

/-!
# Linuxyz.Lib.Chain

`NULL`-terminated singly linked lists in a heap: `heap a` is the entry at
address `a`, if there is one, and `link e` the pointer an entry holds, `none`
being `NULL`.

* `Chain link heap p l` says that `p` points to a list that passes through the
  addresses `l` and ends; such a list is unique and repeats no address.
* `walk` is the loop that looks for the first entry to stop at, and
  `freeAll` the loop that frees every entry; both read the heap and fault, with
  `none`, at an address that holds no entry.  `walk_cases` and
  `freeAll_of_chain` say what they do along a chain.
* `entries` is the contents of a list; a store elsewhere leaves them alone
  (`entries_update_of_notMem`).
-/

namespace Linuxyz

variable {ι α : Type} {link : α → Option ι} {heap heap' : ι → Option α}

/-- From `p`, the links pass through the addresses `l` and end in `NULL`. -/
inductive Chain (link : α → Option ι) (heap : ι → Option α) : Option ι → List ι → Prop where
  | nil : Chain link heap none []
  | cons {a : ι} {e : α} {l : List ι} : heap a = some e → Chain link heap (link e) l →
      Chain link heap (some a) (a :: l)

namespace Chain

/-! ## shape -/

/-- A pointer has one chain. -/
theorem unique (h : Chain link heap p l) (h' : Chain link heap p l') : l = l' := by
  induction h generalizing l' with
  | nil => cases h'; rfl
  | cons hget _ ih =>
      cases h' with
      | cons hget' htail' =>
          rw [hget] at hget'
          cases hget'
          rw [ih htail']

/-- Every address of the list starts a list of its own. -/
theorem of_mem (h : Chain link heap p l) (ha : a ∈ l) :
    ∃ l₁ l₂, l = l₁ ++ a :: l₂ ∧ Chain link heap (some a) (a :: l₂) := by
  induction h with
  | nil => cases ha
  | @cons b e l hget htail ih =>
      cases List.mem_cons.mp ha with
      | inl heq => exact ⟨[], l, by rw [heq]; rfl, heq ▸ .cons hget htail⟩
      | inr hmem =>
          obtain ⟨l₁, l₂, hl, hchain⟩ := ih hmem
          exact ⟨b :: l₁, l₂, by rw [hl]; rfl, hchain⟩

/-- A list that ends repeats no address. -/
theorem nodup (h : Chain link heap p l) : l.Nodup := by
  induction h with
  | nil => exact List.nodup_nil
  | @cons a e l hget htail ih =>
      refine List.nodup_cons.mpr ⟨fun hmem => ?_, ih⟩
      obtain ⟨l₁, l₂, hl, hchain⟩ := htail.of_mem hmem
      have heq := (Chain.cons hget htail).unique hchain
      have hlen := congrArg List.length ((List.cons.inj heq).2)
      rw [hl, List.length_append, List.length_cons] at hlen
      omega

theorem isSome (h : Chain link heap p l) (ha : a ∈ l) : ∃ e, heap a = some e := by
  induction h with
  | nil => cases ha
  | cons hget _ ih =>
      cases List.mem_cons.mp ha with
      | inl heq => exact ⟨_, heq ▸ hget⟩
      | inr hmem => exact ih hmem

/-- Only the links of the list matter. -/
theorem congr (h : Chain link heap p l)
    (hsame : ∀ a ∈ l, ∀ e, heap a = some e → ∃ e', heap' a = some e' ∧ link e' = link e) :
    Chain link heap' p l := by
  induction h with
  | nil => exact .nil
  | @cons a e l hget htail ih =>
      obtain ⟨e', hget', hlink⟩ := hsame a (by simp) e hget
      exact .cons hget' (hlink ▸ ih fun b hb => hsame b (by simp [hb]))

end Chain

/-! ## loops -/

/-- Follow the links to the first entry to stop at. -/
def walk (link : α → Option ι) (heap : ι → Option α) (stop : α → Bool) :
    Nat → Option ι → Option (Option (ι × α))
  | 0, _ => none
  | _ + 1, none => some none
  | fuel + 1, some a =>
      (heap a).bind fun e => if stop e then some (some (a, e))
        else walk link heap stop fuel (link e)

/-- The loop stops at the first entry it should, or at the end of the list. -/
theorem walk_cases (h : Chain link heap p l) (stop : α → Bool) (hfuel : l.length < fuel) :
    (∃ l₁ a l₂ e, l = l₁ ++ a :: l₂ ∧ heap a = some e ∧ stop e = true ∧
        (∀ x ∈ l₁, ∀ e', heap x = some e' → stop e' = false) ∧
        walk link heap stop fuel p = some (some (a, e))) ∨
      (∀ x ∈ l, ∀ e', heap x = some e' → stop e' = false) ∧
        walk link heap stop fuel p = some none := by
  induction h generalizing fuel with
  | nil =>
      obtain ⟨fuel, rfl⟩ : ∃ f, fuel = f + 1 := ⟨fuel - 1, by omega⟩
      refine .inr ⟨fun x hx => ?_, rfl⟩
      cases hx
  | @cons a e l hget htail ih =>
      obtain ⟨fuel, rfl⟩ : ∃ f, fuel = f + 1 := ⟨fuel - 1, by omega⟩
      rw [List.length_cons] at hfuel
      rw [walk, hget, Option.bind_some]
      have hfirst : stop e = false → ∀ x, x = a → ∀ e', heap x = some e' → stop e' = false := by
        rintro hstop x rfl e' he'
        rw [hget] at he'
        cases he'
        exact hstop
      cases hstop : stop e with
      | true =>
          refine .inl ⟨[], a, l, e, rfl, hget, hstop, fun x hx => ?_, rfl⟩
          cases hx
      | false =>
          simp only [Bool.false_eq_true, if_false]
          rcases ih (Nat.lt_of_succ_lt_succ hfuel) with ⟨l₁, b, l₂, e', hl, hb, hs, hbefore,
            hwalk⟩ | ⟨hall, hwalk⟩
          · refine .inl ⟨a :: l₁, b, l₂, e', by rw [hl]; rfl, hb, hs, ?_, hwalk⟩
            intro x hx
            cases List.mem_cons.mp hx with
            | inl heq => exact hfirst hstop x heq
            | inr hmem => exact hbefore x hmem
          · refine .inr ⟨?_, hwalk⟩
            intro x hx
            cases List.mem_cons.mp hx with
            | inl heq => exact hfirst hstop x heq
            | inr hmem => exact hall x hmem

/-- The addresses of a list, in order. -/
def addresses (link : α → Option ι) (heap : ι → Option α) : Nat → Option ι → List ι
  | 0, _ => []
  | _ + 1, none => []
  | fuel + 1, some a =>
      match heap a with
      | none => []
      | some e => a :: addresses link heap fuel (link e)

/-- To follow the links gives the nodes of the chain. -/
theorem addresses_of_chain (h : Chain link heap p l) (hfuel : l.length < fuel) :
    addresses link heap fuel p = l := by
  induction h generalizing fuel with
  | nil =>
      obtain ⟨fuel, rfl⟩ : ∃ f, fuel = f + 1 := ⟨fuel - 1, by omega⟩
      rfl
  | cons hget htail ih =>
      obtain ⟨fuel, rfl⟩ : ∃ f, fuel = f + 1 := ⟨fuel - 1, by omega⟩
      rw [List.length_cons] at hfuel
      simp only [addresses, hget, ih (Nat.lt_of_succ_lt_succ hfuel)]

/-- Only the links matter. -/
theorem addresses_congr (h : ∀ a, (heap' a).map link = (heap a).map link) (fuel : Nat)
    (p : Option ι) : addresses link heap' fuel p = addresses link heap fuel p := by
  induction fuel generalizing p with
  | zero => rfl
  | succ fuel ih =>
      cases p with
      | none => rfl
      | some a =>
          have ha := h a
          simp only [addresses]
          cases hget : heap a with
          | none =>
              rw [hget, Option.map_none, Option.map_eq_none_iff] at ha
              rw [ha]
          | some e =>
              rw [hget, Option.map_some, Option.map_eq_some_iff] at ha
              obtain ⟨e', hget', hlink⟩ := ha
              simp only [hget', hlink, ih]

section Update

variable [DecidableEq ι]

/-- Free the entries of a list from its head: the heap left and the addresses
freed. -/
def freeAll (link : α → Option ι) :
    Nat → (ι → Option α) → Option ι → Option ((ι → Option α) × List ι)
  | 0, _, _ => none
  | _ + 1, heap, none => some (heap, [])
  | fuel + 1, heap, some a =>
      (heap a).bind fun e =>
        (freeAll link fuel (Function.update heap a none) (link e)).map fun (heap,
          freed) => (heap, a :: freed)

/-- The loop frees exactly the list. -/
theorem freeAll_of_chain (h : Chain link heap p l) (hfuel : l.length < fuel) :
    freeAll link fuel heap p = some (fun x => if x ∈ l then none else heap x, l) := by
  induction l generalizing heap p fuel with
  | nil =>
      obtain ⟨fuel, rfl⟩ : ∃ f, fuel = f + 1 := ⟨fuel - 1, by omega⟩
      cases h
      simp [freeAll]
  | cons a l ih =>
      obtain ⟨fuel, rfl⟩ : ∃ f, fuel = f + 1 := ⟨fuel - 1, by omega⟩
      rw [List.length_cons] at hfuel
      have hnd := h.nodup
      cases h with
      | @cons _ e _ hget htail =>
          have hout : a ∉ l := (List.nodup_cons.mp hnd).1
          have hrest : Chain link (Function.update heap a none) (link e) l := by
            refine htail.congr fun b hb e' he' => ⟨e', ?_, rfl⟩
            rw [Function.update_of_ne, he']
            rintro rfl
            exact hout hb
          rw [freeAll, hget, Option.bind_some, ih hrest (Nat.lt_of_succ_lt_succ hfuel),
            Option.map_some]
          have hheap : (fun x => if x ∈ l then none else Function.update heap a none x) =
              fun x => if x ∈ a :: l then none else heap x := by
            funext x
            by_cases hx : x = a
            · simp [hx]
            · simp [hx]
          simp only [hheap]

/-! ## contents -/

/-- The entries of a list. -/
def entries (heap : ι → Option α) (l : List ι) : List α := l.filterMap heap

omit [DecidableEq ι] in
theorem entries_append (l₁ l₂ : List ι) :
    entries heap (l₁ ++ l₂) = entries heap l₁ ++ entries heap l₂ :=
  List.filterMap_append ..

/-- A store elsewhere leaves the contents alone. -/
theorem entries_update_of_notMem (ha : a ∉ l) (o : Option α) :
    entries (Function.update heap a o) l = entries heap l := by
  apply List.filterMap_congr
  intro x hx
  rw [Function.update_of_ne]
  rintro rfl
  exact ha hx

end Update

omit heap' in
theorem entries_split {l₁ l₂ : List ι} (ha : heap a = some e) :
    entries heap (l₁ ++ a :: l₂) = entries heap l₁ ++ e :: entries heap l₂ := by
  rw [entries_append]
  simp only [entries]
  rw [List.filterMap_cons, ha]

end Linuxyz
