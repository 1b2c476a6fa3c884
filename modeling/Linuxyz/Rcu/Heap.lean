import Linuxyz.Rcu.Map
import Mathlib.Data.List.Perm.Subperm

/-!
# Linuxyz.Rcu.Heap

What a writer's section does to the heap.

`Heap s lists pos` is the invariant of the pointers.  Its witness `lists` gives
the nodes linked in each bucket: every key is there at most once, in the bucket
of its hash.  Nodes that are no longer linked still point into their bucket,
and always at a smaller position `pos`, so every chain of `next` pointers ends
in the head of the bucket it started from.

`searchBucket_eq` and `getCcmapRcu_eq` compute the two loops from the list of
their bucket, `updateCcmap_cases` and `removeCcmap_cases` name the outcomes of
the two sections (`State.add`, `State.replace`, `State.del`), and the `Heap.`
lemmas show that each outcome keeps the invariant.
-/

namespace Linuxyz.Rcu

open ListHead
open Function (update update_self update_of_ne)

/-- Pointer `p` stays in bucket `b`, below position `bound`. -/
structure Within (s : State) (pos : Nat → Nat) (b : UInt32) (bound : Nat) (p : Ptr) : Prop where
  head : ∀ c, p = .head c → c = b
  node : ∀ x, p = .node x → x < s.nextId ∧ s.idx (s.key x) = b ∧ pos x < bound

/-- The linked nodes of each bucket, and the order that all nodes follow. -/
structure Heap (s : State) (lists : UInt32 → List Nat) (pos : Nat → Nat) : Prop where
  rings : Rings s.links lists
  alloc : ∀ b n, n ∈ lists b → n < s.nextId
  bucket : ∀ b n, n ∈ lists b → s.idx (s.key n) = b
  unique : ∀ b n n', n ∈ lists b → n' ∈ lists b → s.key n = s.key n' → n = n'
  within : ∀ n, n < s.nextId → Within s pos (s.idx (s.key n)) (pos n) (s.links.next (.node n))
  pos_le : ∀ n, pos n ≤ n

theorem heap_makeCcmap (bcount : UInt32) : Heap (makeCcmap bcount) (fun _ => []) id where
  rings := rings_init
  alloc := fun _ _ h => by cases h
  bucket := fun _ _ h => by cases h
  unique := fun _ _ _ h => by cases h
  within := fun _ h => by cases h
  pos_le := fun _ => Nat.le_refl _

variable {s : State} {lists : UInt32 → List Nat} {pos : Nat → Nat}

/-! ## the loops -/

theorem readKey_of_not_freed (h : n ∉ s.freed) : s.readKey n = some (s.key n) := if_neg h

theorem readNext_of_not_freed (h : n ∉ s.freed) : s.readNext n = some (s.links.next (.node n)) :=
  if_neg h

/-- The search along a segment of the bucket that ends in its head. -/
theorem search_of_seg {l : List Nat} {p : Ptr} (hseg : Seg s.links.next p l (.head (s.idx key)))
    (hlive : ∀ n ∈ l, n ∉ s.freed) (hfuel : l.length < fuel) :
    search s key fuel (s.links.next p) = some (l.find? fun n => s.key n = key) := by
  induction l generalizing p fuel with
  | nil =>
      obtain ⟨fuel, rfl⟩ : ∃ f, fuel = f + 1 := ⟨fuel - 1, by omega⟩
      have hend : s.links.next p = .head (s.idx key) := hseg
      rw [hend, search, if_pos rfl]
      rfl
  | cons n l ih =>
      obtain ⟨fuel, rfl⟩ : ∃ f, fuel = f + 1 := ⟨fuel - 1, by omega⟩
      have hn : n ∉ s.freed := hlive n (by simp)
      have hlt : l.length < fuel := by
        rw [List.length_cons] at hfuel
        omega
      have hrest := ih hseg.2 (fun x hx => hlive x (by simp [hx])) hlt
      rw [hseg.1, search, readKey_of_not_freed hn, Option.bind_some, readNext_of_not_freed hn,
        Option.bind_some, hrest, List.find?_cons]
      by_cases hk : s.key n = key
      · simp [hk]
      · simp [hk]

/-- The steps of `get_ccmap_rcu` along such a segment. -/
theorem getLoop_of_seg {l : List Nat} {p : Ptr} (hseg : Seg s.links.next p l (.head (s.idx key)))
    (hlive : ∀ n ∈ l, n ∉ s.freed) (hfuel : 2 * l.length + 1 < fuel) :
    getLoop s fuel ⟨key, .test (s.links.next p)⟩ = some (l.find? fun n => s.key n = key) := by
  induction l generalizing p fuel with
  | nil =>
      obtain ⟨fuel, rfl⟩ : ∃ f, fuel = f + 2 := ⟨fuel - 2, by simp at hfuel; omega⟩
      have hend : s.links.next p = .head (s.idx key) := hseg
      rw [hend, getLoop_of_not_done _ _ rfl, getStep_head, if_pos rfl]
      rfl
  | cons n l ih =>
      rw [List.length_cons] at hfuel
      obtain ⟨fuel, rfl⟩ : ∃ f, fuel = f + 2 := ⟨fuel - 2, by omega⟩
      have hn : n ∉ s.freed := hlive n (by simp)
      have hlt : 2 * l.length + 1 < fuel := by omega
      have hrest := ih hseg.2 (fun x hx => hlive x (by simp [hx])) hlt
      rw [hseg.1, getLoop_of_not_done _ _ rfl, getStep_node, readKey_of_not_freed hn,
        Option.map_some, Option.bind_some, List.find?_cons]
      by_cases hk : s.key n = key
      · simp [hk, getLoop]
      · simp only [hk, if_false, decide_false]
        rw [getLoop_of_not_done _ _ rfl, getStep_advance, readNext_of_not_freed hn, Option.map_some,
          Option.bind_some, hrest]

/-- A bucket holds at most as many nodes as were allocated. -/
theorem Heap.length_le (h : Heap s lists pos) (b : UInt32) : (lists b).length ≤ s.nextId := by
  have hsub : lists b ⊆ List.range s.nextId := fun n hn => List.mem_range.mpr (h.alloc b n hn)
  have hle := ((h.rings.nodup b).subperm hsub).length_le
  rwa [List.length_range] at hle

theorem Heap.searchBucket_eq (h : Heap s lists pos) (hlive : ∀ b n, n ∈ lists b → n ∉ s.freed)
    (key : Int32) :
    searchBucket s key = some ((lists (s.idx key)).find? fun n => s.key n = key) := by
  have hle := h.length_le (s.idx key)
  exact search_of_seg (h.rings.seg _) (hlive _) (by omega)

theorem Heap.getCcmapRcu_eq (h : Heap s lists pos) (hlive : ∀ b n, n ∈ lists b → n ∉ s.freed)
    (key : Int32) :
    getCcmapRcu s key = some ((lists (s.idx key)).find? fun n => s.key n = key) := by
  have hle := h.length_le (s.idx key)
  rw [getCcmapRcu, getLoop_of_not_done _ _ rfl, getStep_start, Option.bind_some]
  exact getLoop_of_seg (h.rings.seg _) (hlive _) (by omega)

/-! ## the outcomes of a section -/

/-- A new node at the head of its bucket. -/
def State.add (s : State) (key value : Int32) : State :=
  { s with
    links := listAddRcu s.links (.node s.nextId) (.head (s.idx key))
    key := update s.key s.nextId key
    value := update s.value s.nextId value
    nextId := s.nextId + 1 }

/-- A new node in the place of `old`, which follows `prev`. -/
def State.replace (s : State) (prev : Ptr) (old : Nat) (value : Int32) : State :=
  { s with
    links := s.links.replace prev (.node old) (.node s.nextId)
    key := update s.key s.nextId (s.key old)
    value := update s.value s.nextId value
    nextId := s.nextId + 1
    pending := old :: s.pending }

/-- Node `old`, which follows `prev`, taken out. -/
def State.del (s : State) (prev : Ptr) (old : Nat) : State :=
  { s with links := s.links.del prev (.node old), pending := old :: s.pending }

/-- What the search found: nothing with that key, or the one node. -/
theorem find?_cases (l : List Nat) (key : Int32) :
    l.find? (fun n => s.key n = key) = none ∧ (∀ n ∈ l, s.key n ≠ key) ∨
      ∃ old l₁ l₂, l.find? (fun n => s.key n = key) = some old ∧ l = l₁ ++ old :: l₂ ∧
        s.key old = key := by
  cases hf : l.find? fun n => s.key n = key with
  | none =>
      refine .inl ⟨rfl, fun n hn => ?_⟩
      simpa using List.find?_eq_none.mp hf n hn
  | some old =>
      obtain ⟨hkey, l₁, l₂, hl, _⟩ := List.find?_eq_some_iff_append.mp hf
      exact .inr ⟨old, l₁, l₂, rfl, hl, by simpa using hkey⟩

variable (h : Heap s lists pos) (hlive : ∀ b n, n ∈ lists b → n ∉ s.freed)

include h hlive

/-- An allocation that fails changes nothing. -/
theorem Heap.updateCcmap_of_alloc (key value : Int32) :
    updateCcmap s key value false = some (s, -1) := by
  rw [updateCcmap, h.searchBucket_eq hlive]
  rfl

/-- **`update_ccmap`** adds a node for a new key and replaces the node of a key
that is there. -/
theorem Heap.updateCcmap_cases (key value : Int32) :
    (∀ n ∈ lists (s.idx key), s.key n ≠ key) ∧
        updateCcmap s key value true = some (s.add key value, ((s.idx key).toNat : Int)) ∨
      ∃ old l₁ l₂, lists (s.idx key) = l₁ ++ old :: l₂ ∧ s.key old = key ∧
        updateCcmap s key value true =
          some (s.replace (lastLink (.head (s.idx key)) l₁) old value,
            ((s.idx key).toNat : Int)) := by
  rw [updateCcmap, h.searchBucket_eq hlive, Option.bind_some]
  rcases find?_cases (s := s) (lists (s.idx key)) key with ⟨hf, hnone⟩ | ⟨old, l₁, l₂, hf, hl, hkey⟩
  · rw [hf]
    exact .inl ⟨hnone, rfl⟩
  · rw [hf]
    refine .inr ⟨old, l₁, l₂, hl, hkey, ?_⟩
    simp only [Bool.not_true, Bool.false_eq_true, if_false, listReplaceRcu,
      (h.rings.exists_prev hl).2.2.2, Option.map_some]
    rfl

/-- **`remove_ccmap`** takes out the node of a key that is there. -/
theorem Heap.removeCcmap_cases (key : Int32) :
    (∀ n ∈ lists (s.idx key), s.key n ≠ key) ∧ removeCcmap s key = some (s, -1) ∨
      ∃ old l₁ l₂, lists (s.idx key) = l₁ ++ old :: l₂ ∧ s.key old = key ∧
        removeCcmap s key =
          some (s.del (lastLink (.head (s.idx key)) l₁) old, ((s.idx key).toNat : Int)) := by
  rw [removeCcmap, h.searchBucket_eq hlive, Option.bind_some]
  rcases find?_cases (s := s) (lists (s.idx key)) key with ⟨hf, hnone⟩ | ⟨old, l₁, l₂, hf, hl, hkey⟩
  · rw [hf]
    exact .inl ⟨hnone, rfl⟩
  · rw [hf]
    refine .inr ⟨old, l₁, l₂, hl, hkey, ?_⟩
    simp only [listDelRcu, (h.rings.exists_prev hl).2.2.2, Option.map_some]
    rfl

omit h hlive

/-! ## the heap after a section -/

theorem Heap.fresh (h : Heap s lists pos) (b : UInt32) : s.nextId ∉ lists b := fun hn =>
  Nat.lt_irrefl _ (h.alloc b _ hn)

theorem update_nextId_of_lt {α : Type} {f : Nat → α} (h : n < s.nextId) (x : α) :
    update f s.nextId x n = f n := update_of_ne (Nat.ne_of_lt h) ..

/-- The head of a bucket points into its bucket. -/
theorem Heap.within_head (h : Heap s lists pos) (b : UInt32) :
    Within s pos b s.nextId (s.links.next (.head b)) := by
  have hring : InRing lists b (s.links.next (.head b)) := h.rings.inRing_next (b := b) rfl
  constructor
  · intro c hc
    rw [hc] at hring
    exact hring
  · intro x hx
    rw [hx] at hring
    exact ⟨h.alloc b x hring, h.bucket b x hring,
      Nat.lt_of_le_of_lt (h.pos_le x) (h.alloc b x hring)⟩

theorem Within.mono (h : Within s pos b bound p) (hle : bound ≤ bound') :
    Within s pos b bound' p where
  head := h.head
  node := fun x hx => ⟨(h.node x hx).1, (h.node x hx).2.1, Nat.lt_of_lt_of_le (h.node x hx).2.2 hle⟩

/-- A pointer stays within its bucket when a node is allocated. -/
theorem Within.alloc (h : Within s pos b bound p) (s' : State) (hcount : s'.count = s.count)
    (hnext : s'.nextId = s.nextId + 1)
    (hkey : s'.key = update s.key s.nextId k) (q : Nat) :
    Within s' (update pos s.nextId q) b bound p where
  head := h.head
  node := by
    intro x hx
    obtain ⟨hlt, hidx, hpos⟩ := h.node x hx
    refine ⟨by omega, ?_, by rwa [update_nextId_of_lt hlt]⟩
    rw [hkey, update_nextId_of_lt hlt, State.idx, hcount]
    exact hidx

/-! ### adding -/

/-- The lists after an addition hold the new node too. -/
theorem mem_update_cons {b c : UInt32} :
    n ∈ update lists b (x :: lists b) c ↔ n = x ∧ c = b ∨ n ∈ lists c := by
  by_cases hc : c = b
  · subst hc
    rw [update_self, List.mem_cons]
    tauto
  · rw [update_of_ne hc]
    tauto

theorem add_next_new (s : State) (key value : Int32) :
    (s.add key value).links.next (.node s.nextId) = s.links.next (.head (s.idx key)) := by
  simp [State.add, listAddRcu]

theorem add_next_of_ne (s : State) (key value : Int32) (hn : n ≠ s.nextId) :
    (s.add key value).links.next (.node n) = s.links.next (.node n) := by
  simp [State.add, listAddRcu, hn]

/-- A node for a key that the bucket does not have is put in front of it. -/
theorem Heap.add (h : Heap s lists pos) (hnone : ∀ n ∈ lists (s.idx key), s.key n ≠ key)
    (value : Int32) :
    Heap (s.add key value) (update lists (s.idx key) (s.nextId :: lists (s.idx key)))
      (update pos s.nextId s.nextId) where
  rings := h.rings.add h.fresh _
  alloc := by
    intro b n hn
    show n < s.nextId + 1
    rcases mem_update_cons.mp hn with ⟨rfl, _⟩ | hmem
    · exact Nat.lt_succ_self _
    · exact Nat.lt_succ_of_lt (h.alloc _ _ hmem)
  bucket := by
    intro b n hn
    show s.idx (update s.key s.nextId key n) = b
    rcases mem_update_cons.mp hn with ⟨rfl, rfl⟩ | hmem
    · rw [update_self]
    · rw [update_nextId_of_lt (h.alloc _ _ hmem)]
      exact h.bucket _ _ hmem
  unique := by
    intro b n n' hn hn' heq
    change update s.key s.nextId key n = update s.key s.nextId key n' at heq
    rcases mem_update_cons.mp hn with ⟨rfl, rfl⟩ | hmem <;>
      rcases mem_update_cons.mp hn' with ⟨rfl, hb⟩ | hmem'
    · rfl
    · rw [update_self, update_nextId_of_lt (h.alloc _ _ hmem')] at heq
      exact absurd heq.symm (hnone _ hmem')
    · rw [update_self, update_nextId_of_lt (h.alloc _ _ hmem)] at heq
      exact absurd heq (hnone _ (hb ▸ hmem))
    · rw [update_nextId_of_lt (h.alloc _ _ hmem), update_nextId_of_lt (h.alloc _ _ hmem')] at heq
      exact h.unique _ _ _ hmem hmem' heq
  within := by
    intro n hn
    show Within _ _ (s.idx (update s.key s.nextId key n)) _ _
    by_cases hnew : n = s.nextId
    · subst hnew
      rw [add_next_new, update_self, update_self]
      exact (h.within_head _).alloc (s.add key value) rfl rfl rfl _
    · have hlt : n < s.nextId := Nat.lt_of_le_of_ne (Nat.le_of_lt_succ hn) hnew
      rw [add_next_of_ne _ _ _ hnew, update_nextId_of_lt hlt, update_nextId_of_lt hlt]
      exact (h.within n hlt).alloc (s.add key value) rfl rfl rfl _
  pos_le := by
    intro n
    by_cases hn : n = s.nextId
    · simp [hn]
    · rw [update_of_ne hn]
      exact h.pos_le n

/-! ### replacing and deleting -/

/-- A linked node is not linked twice. -/
theorem Heap.mem_iff_of_split (h : Heap s lists pos) {b c : UInt32}
    (hl : lists b = l₁ ++ old :: l₂) :
    n ∈ lists c ∧ n ≠ old ↔ (if c = b then n ∈ l₁ ++ l₂ else n ∈ lists c) := by
  have hnd : (l₁ ++ old :: l₂).Nodup := hl ▸ h.rings.nodup b
  have hold : old ∉ l₁ ++ l₂ := (List.nodup_middle.mp hnd).notMem
  by_cases hc : c = b
  · subst hc
    rw [if_pos rfl, hl]
    constructor
    · rintro ⟨hn, hne⟩
      simp only [List.mem_append, List.mem_cons] at hn ⊢
      tauto
    · intro hn
      refine ⟨?_, fun heq => hold (heq ▸ hn)⟩
      simp only [List.mem_append, List.mem_cons] at hn ⊢
      tauto
  · rw [if_neg hc]
    refine ⟨And.left, fun hn => ⟨hn, ?_⟩⟩
    rintro rfl
    exact hc (h.rings.disjoint _ _ _ hn (by rw [hl]; simp))

/-- The lists after a replacement hold the new node and not the old one. -/
theorem Heap.mem_update_replace (h : Heap s lists pos) {b c : UInt32}
    (hl : lists b = l₁ ++ old :: l₂) :
    n ∈ update lists b (l₁ ++ x :: l₂) c ↔ n = x ∧ c = b ∨ n ∈ lists c ∧ n ≠ old := by
  rw [h.mem_iff_of_split hl]
  by_cases hc : c = b
  · subst hc
    rw [update_self, if_pos rfl]
    simp only [List.mem_append, List.mem_cons]
    tauto
  · rw [update_of_ne hc, if_neg hc]
    tauto

/-- The lists after a deletion hold every other node. -/
theorem Heap.mem_update_del (h : Heap s lists pos) {b c : UInt32} (hl : lists b = l₁ ++ old :: l₂) :
    n ∈ update lists b (l₁ ++ l₂) c ↔ n ∈ lists c ∧ n ≠ old := by
  rw [h.mem_iff_of_split hl]
  by_cases hc : c = b
  · subst hc
    rw [update_self, if_pos rfl]
  · rw [update_of_ne hc, if_neg hc]

section Unlink

variable {b : UInt32} {l₁ l₂ : List Nat} {old : Nat}

/-- The link before a linked node belongs to its bucket, so it is not a node
still to be allocated. -/
theorem Heap.prev_ne_new (h : Heap s lists pos) (hl : lists b = l₁ ++ old :: l₂) :
    lastLink (.head b) l₁ ≠ .node s.nextId := by
  intro heq
  have hring := (h.rings.exists_prev hl).2.1
  rw [heq] at hring
  exact h.fresh b hring

theorem Heap.replace_next_new (h : Heap s lists pos) (hl : lists b = l₁ ++ old :: l₂)
    (value : Int32) :
    (s.replace (lastLink (.head b) l₁) old value).links.next (.node s.nextId) =
      s.links.next (.node old) := by
  simp [State.replace, Links.replace, update_of_ne (h.prev_ne_new hl).symm]

/-- Every other node keeps its successor, or it preceded the old node and now
precedes the new one. -/
theorem Heap.replace_next_of_ne (h : Heap s lists pos) (hl : lists b = l₁ ++ old :: l₂)
    (value : Int32) (hn : n ≠ s.nextId) :
    (s.replace (lastLink (.head b) l₁) old value).links.next (.node n) = s.links.next (.node n) ∨
      s.links.next (.node n) = .node old ∧
        (s.replace (lastLink (.head b) l₁) old value).links.next (.node n) = .node s.nextId := by
  by_cases hp : .node n = lastLink (.head b : Ptr) l₁
  · right
    rw [hp]
    exact ⟨(h.rings.exists_prev hl).2.2.1, by simp [State.replace, Links.replace]⟩
  · left
    simp [State.replace, Links.replace, update_of_ne hp, hn]

theorem Heap.replace_next_old (h : Heap s lists pos) (hl : lists b = l₁ ++ old :: l₂)
    (value : Int32) :
    (s.replace (lastLink (.head b) l₁) old value).links.next (.node old) =
      s.links.next (.node old) := by
  have hp : .node old ≠ lastLink (.head b : Ptr) l₁ := (h.rings.exists_prev hl).1 old (by simp)
  have hne : old ≠ s.nextId := Nat.ne_of_lt (h.alloc b old (by rw [hl]; simp))
  simp [State.replace, Links.replace, update_of_ne hp, hne]

/-- Every node keeps its successor, or it preceded the deleted node and now
precedes what followed that one. -/
theorem Heap.del_next (h : Heap s lists pos) (hl : lists b = l₁ ++ old :: l₂) (n : Nat) :
    (s.del (lastLink (.head b) l₁) old).links.next (.node n) = s.links.next (.node n) ∨
      s.links.next (.node n) = .node old ∧
        (s.del (lastLink (.head b) l₁) old).links.next (.node n) = s.links.next (.node old) := by
  by_cases hp : .node n = lastLink (.head b : Ptr) l₁
  · right
    rw [hp]
    exact ⟨(h.rings.exists_prev hl).2.2.1, by simp [State.del, Links.del]⟩
  · left
    simp [State.del, Links.del, update_of_ne hp]

theorem Heap.del_next_old (h : Heap s lists pos) (hl : lists b = l₁ ++ old :: l₂) :
    (s.del (lastLink (.head b) l₁) old).links.next (.node old) = s.links.next (.node old) := by
  have hp : .node old ≠ lastLink (.head b : Ptr) l₁ := (h.rings.exists_prev hl).1 old (by simp)
  simp [State.del, Links.del, update_of_ne hp]

/-- The new node takes the place of the old one, and its position. -/
theorem Heap.replace (h : Heap s lists pos) (hl : lists b = l₁ ++ old :: l₂) (value : Int32) :
    Heap (s.replace (lastLink (.head b) l₁) old value)
    (update lists b (l₁ ++ s.nextId :: l₂))
      (update pos s.nextId (pos old)) where
  rings := h.rings.replace hl h.fresh
  alloc := by
    intro c n hn
    show n < s.nextId + 1
    rcases (h.mem_update_replace hl).mp hn with ⟨rfl, _⟩ | ⟨hmem, _⟩
    · exact Nat.lt_succ_self _
    · exact Nat.lt_succ_of_lt (h.alloc _ _ hmem)
  bucket := by
    intro c n hn
    show s.idx (update s.key s.nextId (s.key old) n) = c
    rcases (h.mem_update_replace hl).mp hn with ⟨rfl, rfl⟩ | ⟨hmem, _⟩
    · rw [update_self]
      exact h.bucket _ _ (by rw [hl]; simp)
    · rw [update_nextId_of_lt (h.alloc _ _ hmem)]
      exact h.bucket _ _ hmem
  unique := by
    intro c n n' hn hn' heq
    have hold : old ∈ lists b := by rw [hl]; simp
    change update s.key s.nextId (s.key old) n =
      update s.key s.nextId (s.key old) n' at heq
    rcases (h.mem_update_replace hl).mp hn with ⟨rfl, rfl⟩ | ⟨hmem, hne⟩ <;>
      rcases (h.mem_update_replace hl).mp hn' with ⟨rfl, hb⟩ | ⟨hmem', hne'⟩
    · rfl
    · rw [update_self, update_nextId_of_lt (h.alloc _ _ hmem')] at heq
      exact absurd (h.unique _ _ _ hold hmem' heq).symm hne'
    · rw [update_self, update_nextId_of_lt (h.alloc _ _ hmem)] at heq
      exact absurd (h.unique _ _ _ (hb ▸ hmem) hold heq) hne
    · rw [update_nextId_of_lt (h.alloc _ _ hmem), update_nextId_of_lt (h.alloc _ _ hmem')] at heq
      exact h.unique _ _ _ hmem hmem' heq
  within := by
    intro n hn
    have holdlt : old < s.nextId := h.alloc b old (by rw [hl]; simp)
    show Within _ _ (s.idx (update s.key s.nextId (s.key old) n)) _ _
    by_cases hnew : n = s.nextId
    · subst hnew
      rw [h.replace_next_new hl, update_self, update_self]
      exact (h.within old holdlt).alloc (s.replace _ old value) rfl rfl rfl _
    · have hlt : n < s.nextId := Nat.lt_of_le_of_ne (Nat.le_of_lt_succ hn) hnew
      rw [update_nextId_of_lt hlt, update_nextId_of_lt hlt]
      rcases h.replace_next_of_ne hl value hnew with hsame | ⟨hold, hmoved⟩
      · rw [hsame]
        exact (h.within n hlt).alloc (s.replace _ old value) rfl rfl rfl _
      · -- the new node stands where the old one did
        obtain ⟨_, hidx, hpos⟩ := (h.within n hlt).node old hold
        rw [hmoved]
        constructor
        · intro c hc; cases hc
        · rintro x ⟨⟩
          refine ⟨Nat.lt_succ_self _, ?_, by rwa [update_self]⟩
          show s.idx (update s.key s.nextId (s.key old) s.nextId) = _
          rw [update_self]
          exact hidx
  pos_le := by
    intro n
    by_cases hn : n = s.nextId
    · have holdlt : old < s.nextId := h.alloc b old (by rw [hl]; simp)
      rw [hn, update_self]
      exact Nat.le_of_lt (Nat.lt_of_le_of_lt (h.pos_le old) holdlt)
    · rw [update_of_ne hn]; exact h.pos_le n

/-- The node is taken out of its bucket, and keeps its position. -/
theorem Heap.del (h : Heap s lists pos) (hl : lists b = l₁ ++ old :: l₂) :
    Heap (s.del (lastLink (.head b) l₁) old) (update lists b (l₁ ++ l₂)) pos where
  rings := h.rings.del hl
  alloc := fun c n hn => h.alloc c n ((h.mem_update_del hl).mp hn).1
  bucket := fun c n hn => h.bucket c n ((h.mem_update_del hl).mp hn).1
  unique := fun c n n' hn hn' heq =>
    h.unique c n n' ((h.mem_update_del hl).mp hn).1 ((h.mem_update_del hl).mp hn').1 heq
  within := by
    intro n hn
    have hn : n < s.nextId := hn
    rcases h.del_next hl n with hsame | ⟨hold, hmoved⟩
    · rw [hsame]
      exact ⟨(h.within n hn).head, (h.within n hn).node⟩
    · obtain ⟨hlt, hidx, hpos⟩ := (h.within n hn).node old hold
      have hbelow := (h.within old hlt).mono (Nat.le_of_lt hpos)
      rw [hidx] at hbelow
      rw [hmoved]
      exact ⟨hbelow.head, hbelow.node⟩
  pos_le := h.pos_le

end Unlink

/-! ## paths -/

/-- A pointer to a head or to a node that was allocated. -/
def Allocated (s : State) (p : Ptr) : Prop := ∀ n, p = .node n → n < s.nextId

/-- A path from an allocated node stays among the allocated nodes of its
bucket. -/
theorem Heap.onPath_within (h : Heap s lists pos) (hp : Allocated s p)
    (hpath : OnPath s.links.next p n) : n < s.nextId := by
  induction hpath with
  | @here n => exact hp n rfl
  | @there x n _ ih => exact ih fun y hy => ((h.within x (hp x rfl)).node y hy).1

theorem Heap.not_onPath_new (h : Heap s lists pos) (hp : Allocated s p) :
    ¬ OnPath s.links.next p s.nextId :=
  fun hpath => Nat.lt_irrefl _ (h.onPath_within hp hpath)

/-- The nodes met from the head of a bucket are the linked ones. -/
theorem Heap.onPath_head (h : Heap s lists pos) (b : UInt32) :
    OnPath s.links.next (s.links.next (.head b)) n ↔ n ∈ lists b := (h.rings.seg b).onPath_iff

end Linuxyz.Rcu
