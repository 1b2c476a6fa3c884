import Mathlib.Data.List.Nodup
import Mathlib.Logic.Function.Basic

/-!
# Linuxyz.Lib.ListHead

The circular doubly linked lists of the kernel, as pointers: `β` names the
list heads, `ν` the nodes, and a node that was unlinked keeps its `next`.

* `listAddRcu`, `listReplaceRcu`, `listDelRcu` are the three updates, store by
  store; a poisoned `prev` makes the last two fault.
* `Seg` says that a list of nodes lies between two links, and `Rings` that
  every head carries such a list, back pointers included.  Each update keeps
  `Rings`, with the obvious change of one list.
* `OnPath` is what somebody who only follows `next` can still come to, from a
  linked node or from an unlinked one.  The `onPath_` lemmas say how each
  update changes that view: adding leaves it alone, replacing puts the new
  node in place of the old one, and deleting takes away only the deleted node.
-/

namespace Linuxyz.ListHead

open Function (update update_self update_of_ne)

/-- A `struct list_head`: a head, or the one inside a node. -/
inductive Link (β ν : Type) where
  | head (b : β)
  | node (n : ν)
deriving DecidableEq

/-- The two pointers of every link; `none` is a poisoned `prev`. -/
structure Links (β ν : Type) where
  next : Link β ν → Link β ν
  prev : Link β ν → Option (Link β ν)

/-- Every link initialised by `INIT_LIST_HEAD`. -/
def Links.init {β ν : Type} : Links β ν := { next := id, prev := some }

variable {β ν : Type}

/-! ## segments -/

/-- From `p`, the next pointers pass through the nodes `l` and arrive at `q`. -/
def Seg (next : Link β ν → Link β ν) : Link β ν → List ν → Link β ν → Prop
  | p, [], q => next p = q
  | p, n :: l, q => next p = .node n ∧ Seg next (.node n) l q

/-- The last link of a segment before its end. -/
def lastLink : Link β ν → List ν → Link β ν
  | p, [] => p
  | _, n :: l => lastLink (.node n) l

variable {next next' : Link β ν → Link β ν} {p q : Link β ν} {l l₁ l₂ : List ν}

theorem seg_append : Seg next p (l₁ ++ n :: l₂) q ↔ Seg next p l₁ (.node n) ∧
      Seg next (.node n) l₂ q := by
  induction l₁ generalizing p with
  | nil => rfl
  | cons x l₁ ih =>
      show next p = .node x ∧ Seg next (.node x) (l₁ ++ n :: l₂) q ↔ (next p = .node x ∧ _) ∧ _
      rw [ih, and_assoc]

/-- Only the pointers of the start and of the nodes between matter. -/
theorem Seg.congr (h : Seg next p l q) (hp : next' p' = next p)
    (hl : ∀ n ∈ l, next' (.node n) = next (.node n)) : Seg next' p' l q := by
  induction l generalizing p p' with
  | nil => exact hp.trans h
  | cons n l ih =>
      exact ⟨hp.trans h.1, ih h.2 (hl n (by simp)) fun x hx => hl x (by simp [hx])⟩

theorem Seg.next_lastLink (h : Seg next p l q) : next (lastLink p l) = q := by
  induction l generalizing p with
  | nil => exact h
  | cons n l ih => exact ih h.2

theorem lastLink_cases (p : Link β ν) (l : List ν) :
    lastLink p l = p ∨ ∃ n ∈ l, lastLink p l = .node n := by
  induction l generalizing p with
  | nil => exact .inl rfl
  | cons n l ih =>
      cases ih (.node n) with
      | inl h => exact .inr ⟨n, by simp, h⟩
      | inr h =>
          obtain ⟨x, hx, hlast⟩ := h
          exact .inr ⟨x, by simp [hx], hlast⟩

/-- What follows a link of a segment is its next node or its end. -/
theorem Seg.next_mem (h : Seg next p l q) (hx : x = p ∨ ∃ n ∈ l, x = .node n) :
    next x = q ∨ ∃ n ∈ l, next x = .node n := by
  induction l generalizing p with
  | nil =>
      cases hx with
      | inl hx => exact .inl (hx ▸ h)
      | inr hx => obtain ⟨n, hn, _⟩ := hx; cases hn
  | cons n l ih =>
      have hrest : (x = .node n ∨ ∃ m ∈ l, x = .node m) →
          next x = q ∨ ∃ m ∈ n :: l, next x = .node m := by
        intro hx
        cases ih h.2 hx with
        | inl hq => exact .inl hq
        | inr hm => obtain ⟨m, hm, heq⟩ := hm; exact .inr ⟨m, by simp [hm], heq⟩
      cases hx with
      | inl hx => exact .inr ⟨n, by simp, hx ▸ h.1⟩
      | inr hx =>
          obtain ⟨m, hm, rfl⟩ := hx
          cases List.mem_cons.mp hm with
          | inl hmn => exact hrest (.inl (by rw [hmn]))
          | inr hml => exact hrest (.inr ⟨m, hml, rfl⟩)

/-! ## what a reader can still come to -/

/-- Node `n` is met by following `next` from `p`, up to the first head. -/
inductive OnPath (next : Link β ν → Link β ν) : Link β ν → ν → Prop where
  | here {n : ν} : OnPath next (.node n) n
  | there {x n : ν} : OnPath next (next (.node x)) n → OnPath next (.node x) n

/-- From before a segment that ends in a head, exactly its nodes are met. -/
theorem Seg.onPath_iff (h : Seg next p l (.head b)) : OnPath next (next p) n ↔ n ∈ l := by
  induction l generalizing p with
  | nil =>
      have hend : next p = .head b := h
      rw [hend]
      constructor
      · intro hpath; cases hpath
      · intro hn; cases hn
  | cons x l ih =>
      rw [h.1, List.mem_cons, ← ih h.2]
      constructor
      · intro hpath
        cases hpath with
        | here => exact .inl rfl
        | there hpath => exact .inr hpath
      · intro hn
        cases hn with
        | inl hn => exact hn ▸ .here
        | inr hn => exact .there hn

theorem OnPath.trans (h : OnPath next p x) (hn : OnPath next (.node x) n) : OnPath next p n := by
  induction h with
  | here => exact hn
  | there _ ih => exact .there (ih hn)

/-- Pointers off the path do not matter. -/
theorem onPath_congr (hsame : ∀ x, OnPath next p x → next' (.node x) = next (.node x)) :
    OnPath next' p n ↔ OnPath next p n := by
  constructor
  · intro h
    induction h with
    | here => exact .here
    | @there x _ _ ih =>
        have hx := hsame x .here
        rw [hx] at ih
        exact .there (ih fun y hy => hsame y (.there hy))
  · intro h
    induction h with
    | here => exact .here
    | @there x _ _ ih =>
        have hx := hsame x .here
        exact .there (hx ▸ ih fun y hy => hsame y (.there hy))

/-- After a replacement a path meets what it met before, or the new node where
it met the old one. -/
theorem onPath_of_replace {old new : ν} (hnew : next' (.node new) = next (.node old))
    (hstep : ∀ x, x ≠ new → next' (.node x) = next (.node x) ∨
      next (.node x) = .node old ∧ next' (.node x) = .node new)
    (hfresh : ¬ OnPath next p new) (h : OnPath next' p n) :
    OnPath next p n ∨ n = new ∧ OnPath next p old := by
  -- from the new node on, the path is that of the old one's successor
  suffices hboth : (¬ OnPath next p new → OnPath next p n ∨ n = new ∧ OnPath next p old) ∧
      (p = .node new → ¬ OnPath next (next (.node old)) new →
        n = new ∨ OnPath next (next (.node old)) n ∨ n = new ∧
          OnPath next (next (.node old)) old) from
    hboth.1 hfresh
  clear hfresh
  induction h with
  | here => exact ⟨fun _ => .inl .here, fun heq _ => .inl (by cases heq; rfl)⟩
  | @there x n hpath ih =>
      constructor
      · intro havoid
        have hx : x ≠ new := fun heq => havoid (heq ▸ .here)
        cases hstep x hx with
        | inl hsame =>
            cases ih.1 (hsame ▸ fun hp => havoid (.there hp)) with
            | inl hp => exact .inl (.there (hsame ▸ hp))
            | inr hp => exact .inr ⟨hp.1, .there (hsame ▸ hp.2)⟩
        | inr hmove =>
            obtain ⟨hold, hnext⟩ := hmove
            have hmeets : OnPath next (.node x) old := .there (hold ▸ .here)
            cases ih.2 hnext fun hp => havoid (hmeets.trans (.there hp)) with
            | inl hn => exact .inr ⟨hn, hmeets⟩
            | inr hrest =>
                cases hrest with
                | inl hp => exact .inl (hmeets.trans (.there hp))
                | inr hp => exact .inr ⟨hp.1, hmeets⟩
      · intro heq havoid
        cases heq
        rw [hnew] at ih
        exact .inr (ih.1 havoid)

/-- And it still meets what it met, but for the old node, in whose place it may
meet the new one. -/
theorem OnPath.replace {old new : ν} (hnew : next' (.node new) = next (.node old))
    (hold : next' (.node old) = next (.node old))
    (hstep : ∀ x, x ≠ new → next' (.node x) = next (.node x) ∨
      next (.node x) = .node old ∧ next' (.node x) = .node new)
    (hfresh : ¬ OnPath next p new) (h : OnPath next p n) :
    OnPath next' p n ∨ n = old ∧ OnPath next' p new := by
  induction h with
  | here => exact .inl .here
  | @there x n hpath ih =>
      have hx : x ≠ new := fun heq => hfresh (heq ▸ .here)
      have hrest := ih fun hp => hfresh (.there hp)
      cases hstep x hx with
      | inl hsame =>
          cases hrest with
          | inl hp => exact .inl (.there (hsame ▸ hp))
          | inr hp => exact .inr ⟨hp.1, .there (hsame ▸ hp.2)⟩
      | inr hmove =>
          have hmeets : OnPath next' (.node x) new := .there (hmove.2 ▸ .here)
          rw [hmove.1] at hrest
          cases hrest with
          | inl hp =>
              cases hp with
              | here => exact .inr ⟨rfl, hmeets⟩
              | there hp => exact .inl (hmeets.trans (.there (by rw [hnew, ← hold]; exact hp)))
          | inr hp => exact .inr ⟨hp.1, hmeets⟩

/-- After a deletion a path meets nothing else. -/
theorem onPath_of_del {d : ν} (hstep : ∀ x, next' (.node x) = next (.node x) ∨
      next (.node x) = .node d ∧ next' (.node x) = next (.node d)) (h : OnPath next' p n) :
    OnPath next p n := by
  induction h with
  | here => exact .here
  | @there x n hpath ih =>
      cases hstep x with
      | inl hsame => exact .there (hsame ▸ ih)
      | inr hmove =>
          rw [hmove.2] at ih
          exact .there (by rw [hmove.1]; exact .there ih)

/-- And it still meets every other node. -/
theorem OnPath.del {d : ν} (hd : next' (.node d) = next (.node d))
    (hstep : ∀ x, next' (.node x) = next (.node x) ∨
      next (.node x) = .node d ∧ next' (.node x) = next (.node d)) (h : OnPath next p n) (hn :
    n ≠ d) : OnPath next' p n := by
  induction h with
  | here => exact .here
  | @there x n hpath ih =>
      have hrest := ih hn
      cases hstep x with
      | inl hsame => exact .there (hsame ▸ hrest)
      | inr hmove =>
          rw [hmove.1] at hrest
          cases hrest with
          | here => exact absurd rfl hn
          | there hp => exact .there (by rw [hmove.2, ← hd]; exact hp)

/-! ## rings -/

/-- `p` is a link of list `b`. -/
def InRing (l : β → List ν) (b : β) : Link β ν → Prop
  | .head b' => b' = b
  | .node n => n ∈ l b

/-- Every head carries the list of nodes `l` says, in a ring of its own. -/
structure Rings (m : Links β ν) (l : β → List ν) : Prop where
  seg : ∀ b, Seg m.next (.head b) (l b) (.head b)
  nodup : ∀ b, (l b).Nodup
  disjoint : ∀ b b' n, n ∈ l b → n ∈ l b' → b = b'
  prev_next : ∀ b p, InRing l b p → m.prev (m.next p) = some p

theorem rings_init : Rings (Links.init : Links β ν) fun _ => [] where
  seg := fun _ => rfl
  nodup := fun _ => List.nodup_nil
  disjoint := fun _ _ _ h => by cases h
  prev_next := fun _ _ _ => rfl

variable {m : Links β ν} {lists : β → List ν} {b b' : β} {old new : ν}

/-- From inside a ring one stays inside. -/
theorem Rings.inRing_next (h : Rings m lists) (hp : InRing lists b p) :
    InRing lists b (m.next p) := by
  have hmem : m.next p = .head b ∨ ∃ n ∈ lists b, m.next p = .node n := by
    apply (h.seg b).next_mem
    cases p with
    | head b' => exact .inl (congrArg Link.head hp)
    | node n => exact .inr ⟨n, hp, rfl⟩
  cases hmem with
  | inl heq => rw [heq]; rfl
  | inr hn => obtain ⟨n, hn, heq⟩ := hn; rw [heq]; exact hn

theorem Rings.inRing_unique (h : Rings m lists) (hp : InRing lists b p) (hp' : InRing lists b' p) :
    b = b' := by
  cases p with
  | head c =>
      have hb : c = b := hp
      have hb' : c = b' := hp'
      rw [← hb, ← hb']
  | node n => exact h.disjoint _ _ _ hp hp'

/-- Two links of rings with one successor are one link. -/
theorem Rings.next_inj (h : Rings m lists) (hp : InRing lists b p) (hq : InRing lists b' q)
    (heq : m.next p = m.next q) : p = q := by
  have hprev := h.prev_next b p hp
  rw [heq, h.prev_next b' q hq] at hprev
  exact (Option.some.inj hprev).symm

/-- Before a linked node stands the link its `prev` says. -/
theorem Rings.exists_prev (h : Rings m lists) (hl : lists b = l₁ ++ old :: l₂) :
    (∀ n ∈ old :: l₂, .node n ≠ lastLink (.head b) l₁) ∧ InRing lists b (lastLink (.head b) l₁) ∧
      m.next (lastLink (.head b) l₁) = .node old ∧
      m.prev (.node old) = some (lastLink (.head b) l₁) := by
  have hnd : (l₁ ++ old :: l₂).Nodup := hl ▸ h.nodup b
  have hseg : Seg m.next (.head b) (l₁ ++ old :: l₂) (.head b) := hl ▸ h.seg b
  have hnext : m.next (lastLink (.head b) l₁) = .node old := (seg_append.mp hseg).1.next_lastLink
  have hring : (∀ n ∈ old :: l₂, .node n ≠ lastLink (.head b) l₁) ∧
      InRing lists b (lastLink (.head b) l₁) := by
    cases lastLink_cases (.head b : Link β ν) l₁ with
    | inl heq => rw [heq]; exact ⟨by simp, rfl⟩
    | inr hn =>
        obtain ⟨n, hn, heq⟩ := hn
        rw [heq]
        constructor
        · intro x hx hxn
          cases hxn
          exact List.disjoint_of_nodup_append hnd hn hx
        · show n ∈ lists b
          rw [hl]
          simp [hn]
  exact ⟨hring.1, hring.2, hnext, hnext ▸ h.prev_next b _ hring.2⟩

/-- A linked node does not follow itself. -/
theorem Rings.next_ne (h : Rings m lists) (hl : lists b = l₁ ++ old :: l₂) :
    m.next (.node old) ≠ .node old := by
  intro hself
  obtain ⟨hne, hring, hnext, _⟩ := h.exists_prev hl
  have hold : InRing lists b (.node old) := by show old ∈ lists b; rw [hl]; simp
  exact hne old (by simp) (h.next_inj hold hring (hself.trans hnext.symm))

variable [DecidableEq β] [DecidableEq ν]

/-! ## the operations -/

/-- `list_add_rcu(new, head)`. -/
def listAddRcu (m : Links β ν) (new head : Link β ν) : Links β ν :=
  let next := m.next head
  { next := update (update m.next new next) head new
    prev := update (update m.prev new (some head)) next (some new) }

/-- The stores of `list_replace_rcu(old, new)`, where `prev` is `old->prev`. -/
def Links.replace (m : Links β ν) (prev old new : Link β ν) : Links β ν :=
  let next := m.next old
  { next := update (update m.next new next) prev new
    prev :=
      update (update (update m.prev new (some prev)) next
        (some new)) old none }

/-- `list_replace_rcu(old, new)`. -/
def listReplaceRcu (m : Links β ν) (old new : Link β ν) : Option (Links β ν) :=
  (m.prev old).map fun prev => m.replace prev old new

/-- The stores of `list_del_rcu(entry)`, where `prev` is `entry->prev`. -/
def Links.del (m : Links β ν) (prev entry : Link β ν) : Links β ν :=
  let next := m.next entry
  { next := update m.next prev next
    prev := update (update m.prev next (some prev)) entry none }

/-- `list_del_rcu(entry)`. -/
def listDelRcu (m : Links β ν) (entry : Link β ν) : Option (Links β ν) :=
  (m.prev entry).map fun prev => m.del prev entry

/-- Redirecting the last link of a segment moves its end. -/
theorem Seg.retarget (h : Seg next p l q) (hp : ∀ n ∈ l, p ≠ .node n) (hnd : l.Nodup)
    (r : Link β ν) : Seg (update next (lastLink p l) r) p l r := by
  induction l generalizing p with
  | nil => exact update_self ..
  | cons n l ih =>
      obtain ⟨hn, hnd⟩ := List.nodup_cons.mp hnd
      have hrest := ih h.2 (fun x hx heq => hn (by cases heq; exact hx)) hnd
      refine ⟨?_, hrest⟩
      -- the start of a non-empty segment is not its last link
      have hne : p ≠ lastLink (.node n) l := by
        cases lastLink_cases (.node n) l with
        | inl hl => rw [hl]; exact hp n (by simp)
        | inr hl =>
            obtain ⟨x, hx, hlast⟩ := hl
            rw [hlast]
            exact hp x (by simp [hx])
      show update next (lastLink (.node n) l) r p = .node n
      rw [update_of_ne hne]
      exact h.1

/-! ## the operations keep the rings -/

section Update

variable {lb : List ν}

omit [DecidableEq ν]

/-- Lists other than the changed one keep their segment when the pointers
changed belong to the changed one or to no list. -/
theorem Rings.seg_of_ne (h : Rings m lists) {next : Link β ν → Link β ν} (hb : b' ≠ b)
    (hsame : ∀ p, InRing lists b' p → next p = m.next p) :
    Seg next (.head b') (update lists b lb b') (.head b') := by
  rw [update_of_ne hb]
  exact (h.seg b').congr (hsame _ rfl) fun n hn => hsame (.node n) hn

theorem Rings.nodup_update (h : Rings m lists) (hlb : lb.Nodup) (c : β) :
    (update lists b lb c).Nodup := by
  by_cases hc : c = b
  · rw [hc, update_self]; exact hlb
  · rw [update_of_ne hc]; exact h.nodup c

theorem mem_update_of_ne (hc : c ≠ b) (hn : n ∈ update lists b lb c) : n ∈ lists c := by
  rwa [update_of_ne hc] at hn

/-- The lists stay disjoint when one gains only nodes from nowhere. -/
theorem Rings.disjoint_update (h : Rings m lists) (hlb : ∀ n ∈ lb, n ∈ lists b ∨ ∀ c, n ∉ lists c)
    (c c' : β) (n : ν) (hn : n ∈ update lists b lb c)
    (hn' : n ∈ update lists b lb c') : c = c' := by
  have hother : ∀ {d : β}, d ≠ b → n ∈ lists d → n ∉ lb := by
    intro d hd hnd hnb
    cases hlb n hnb with
    | inl hb => exact hd (h.disjoint _ _ _ hnd hb)
    | inr hnone => exact hnone d hnd
  by_cases hc : c = b <;> by_cases hc' : c' = b
  · rw [hc, hc']
  · rw [hc, update_self] at hn
    exact absurd hn (hother hc' (mem_update_of_ne hc' hn'))
  · rw [hc', update_self] at hn'
    exact absurd hn' (hother hc (mem_update_of_ne hc hn))
  · exact h.disjoint _ _ _ (mem_update_of_ne hc hn) (mem_update_of_ne hc' hn')

/-- The links of the changed rings are old ones or new nodes. -/
theorem inRing_of_update (hp : InRing (update lists b lb) c p) :
    (∃ n ∈ lb, p = .node n) ∨ c ≠ b ∧ InRing lists c p ∨ p = .head c := by
  cases p with
  | head c' =>
      have hc : c' = c := hp
      exact .inr (.inr (by rw [hc]))
  | node n =>
      by_cases hc : c = b
      · have hn : n ∈ update lists b lb c := hp
        rw [hc, update_self] at hn
        exact .inl ⟨n, hn, rfl⟩
      · exact .inr (.inl ⟨hc, mem_update_of_ne hc hp⟩)

end Update

/-- **Adding** a node at the head of a list. -/
theorem Rings.add (h : Rings m lists) (hnew : ∀ b, new ∉ lists b) (b : β) :
    Rings (listAddRcu m (.node new) (.head b)) (update lists b (new :: lists b)) := by
  have hfresh : ∀ {c : β} {p : Link β ν}, InRing lists c p → p ≠ .node new := by
    rintro c p hp rfl
    exact hnew c hp
  have hhead : InRing lists b (.head b) := rfl
  have hnext : ∀ {c : β} {p : Link β ν}, InRing lists c p → p ≠ .head b →
      (listAddRcu m (.node new) (.head b)).next p = m.next p := by
    intro c p hp hne
    simp [listAddRcu, hne, hfresh hp]
  refine ⟨?_, h.nodup_update (List.nodup_cons.mpr ⟨hnew b, h.nodup b⟩), h.disjoint_update ?_, ?_⟩
  · intro c
    by_cases hc : c = b
    · subst hc
      rw [update_self]
      refine ⟨by simp [listAddRcu], (h.seg c).congr (by simp [listAddRcu]) ?_⟩
      intro n hn
      exact hnext (c := c) (p := .node n) hn (by simp)
    · refine h.seg_of_ne hc fun p hp => hnext hp ?_
      rintro rfl
      exact hc (h.inRing_unique hp hhead)
  · intro n hn
    cases List.mem_cons.mp hn with
    | inl heq => exact .inr fun c => heq ▸ hnew c
    | inr hb => exact .inl hb
  · -- the new node points back to the head and its successor to it; all others keep
    intro c p hp
    have hcases : p = .node new ∨ p = .head b ∨ p ≠ .head b ∧ ∃ c, InRing lists c p := by
      by_cases hph : p = .head b
      · exact .inr (.inl hph)
      · rcases inRing_of_update hp with ⟨n, hn, rfl⟩ | ⟨_, hc⟩ | rfl
        · cases List.mem_cons.mp hn with
          | inl heq => exact .inl (by rw [heq])
          | inr hb => exact .inr (.inr ⟨hph, b, hb⟩)
        · exact .inr (.inr ⟨hph, c, hc⟩)
        · exact .inr (.inr ⟨hph, c, rfl⟩)
    rcases hcases with rfl | rfl | ⟨hne, c, hc⟩
    · simp [listAddRcu]
    · have hne : (.node new : Link β ν) ≠ m.next (.head b) := (hfresh (h.inRing_next hhead)).symm
      simp [listAddRcu, hne]
    · rw [hnext hc hne]
      have hne₁ : m.next p ≠ m.next (.head b) := fun heq => hne (h.next_inj hc hhead heq)
      have hne₂ : m.next p ≠ .node new := hfresh (h.inRing_next hc)
      simp only [listAddRcu, update_of_ne hne₁, update_of_ne hne₂]
      exact h.prev_next c p hc

section Without

variable {lb : List ν}

omit [DecidableEq ν]

/-- A link of the rings without `old` is an added node or a link other than
`old` of the rings before. -/
theorem Rings.inRing_without (h : Rings m lists) (hl : lists b = l₁ ++ old :: l₂)
    (hp : InRing (update lists b lb) c p) :
    (∃ n ∈ lb, n ∉ l₁ ++ l₂ ∧ p = .node n) ∨ p ≠ .node old ∧ ∃ c, InRing lists c p := by
  have hnd : (l₁ ++ old :: l₂).Nodup := hl ▸ h.nodup b
  have hold : old ∈ lists b := by rw [hl]; simp
  rcases inRing_of_update hp with ⟨n, hn, rfl⟩ | ⟨hc, hring⟩ | rfl
  · by_cases hmem : n ∈ l₁ ++ l₂
    · refine .inr ⟨?_, b, ?_⟩
      · rintro ⟨⟩
        exact (List.nodup_middle.mp hnd).notMem hmem
      · show n ∈ lists b
        rw [hl]
        simp only [List.mem_append, List.mem_cons] at hmem ⊢
        tauto
    · exact .inl ⟨n, hn, hmem, rfl⟩
  · refine .inr ⟨?_, c, hring⟩
    rintro rfl
    exact hc (h.disjoint _ _ _ hring hold)
  · exact .inr ⟨by simp, c, rfl⟩

end Without

/-- **Replacing** a linked node by a new one in its place. -/
theorem Rings.replace (h : Rings m lists) (hl : lists b = l₁ ++ old :: l₂)
    (hnew : ∀ b, new ∉ lists b) :
    Rings (m.replace (lastLink (.head b) l₁) (.node old) (.node new))
      (update lists b (l₁ ++ new :: l₂)) := by
  obtain ⟨hafter, hprev, hnextprev, hprevold⟩ := h.exists_prev hl
  have hnd : (l₁ ++ old :: l₂).Nodup := hl ▸ h.nodup b
  have hmem : ∀ n, n ∈ l₁ ∨ n ∈ l₂ → n ∈ lists b := by
    intro n hn
    rw [hl]
    simp only [List.mem_append, List.mem_cons]
    tauto
  have hold : InRing lists b (.node old) := by show old ∈ lists b; rw [hl]; simp
  have hlb : ∀ n ∈ l₁ ++ new :: l₂, n = new ∨ n ∈ l₁ ∨ n ∈ l₂ := by
    intro n hn
    simp only [List.mem_append, List.mem_cons] at hn
    tauto
  have hfresh : ∀ {c : β} {p : Link β ν}, InRing lists c p → p ≠ .node new := by
    rintro c p hp rfl
    exact hnew c hp
  have hnewold : (.node new : Link β ν) ≠ .node old := (hfresh hold).symm
  -- the next pointers
  have hnext_new : (m.replace (lastLink (.head b) l₁) (.node old) (.node new)).next (.node new) =
      m.next (.node old) := by
    simp [Links.replace, update_of_ne (hfresh hprev).symm]
  have hnext_of_ne : ∀ {p : Link β ν}, p ≠ .node new → p ≠ lastLink (.head b) l₁ →
      (m.replace (lastLink (.head b) l₁) (.node old) (.node new)).next p = m.next p := by
    intro p hp₁ hp₂
    simp [Links.replace, hp₁, hp₂]
  refine ⟨?_, h.nodup_update ?_, h.disjoint_update ?_, ?_⟩
  · intro c
    by_cases hc : c = b
    · subst hc
      have hseg : Seg m.next (.head c) (l₁ ++ old :: l₂) (.head c) := hl ▸ h.seg c
      obtain ⟨hseg₁, hseg₂⟩ := seg_append.mp hseg
      rw [update_self, seg_append]
      constructor
      · have hkeep :
            Seg (update m.next (.node new) (m.next (.node old))) (.head c) l₁
              (.node old) := by
          refine hseg₁.congr (by simp) fun n hn => update_of_ne ?_ ..
          exact hfresh (c := c) (p := .node n) (hmem n (.inl hn))
        exact hkeep.retarget (by simp) (List.nodup_append.mp hnd).1 (.node new)
      · refine hseg₂.congr hnext_new fun n hn => hnext_of_ne ?_ (hafter n (by simp [hn]))
        exact hfresh (c := c) (p := .node n) (hmem n (.inr hn))
    · refine h.seg_of_ne hc fun p hp => hnext_of_ne (hfresh hp) ?_
      rintro rfl
      exact hc (h.inRing_unique hp hprev)
  · have hnd' := List.nodup_middle.mp hnd
    refine List.nodup_middle.mpr (List.nodup_cons.mpr ⟨?_, hnd'.of_cons⟩)
    intro hn
    exact hnew b (hmem new (List.mem_append.mp hn))
  · intro n hn
    cases hlb n hn with
    | inl heq => exact .inr fun c => heq ▸ hnew c
    | inr hmem' => exact .inl (hmem n hmem')
  · intro c p hp
    rcases h.inRing_without hl hp with ⟨n, hn, hnone, rfl⟩ | ⟨hpold, c, hc⟩
    · obtain rfl : n = new :=
        (hlb n hn).resolve_right fun hmem' => hnone (List.mem_append.mpr hmem')
      rw [hnext_new]
      simp [Links.replace, h.next_ne hl]
    · by_cases hpp : p = lastLink (.head b) l₁
      · subst hpp
        have hne : (.node new : Link β ν) ≠ m.next (.node old) := (hfresh (h.inRing_next hold)).symm
        simp [Links.replace, hne, hnewold]
      · rw [hnext_of_ne (hfresh hc) hpp]
        have hne₁ : m.next p ≠ m.next (.node old) := fun heq => hpold (h.next_inj hc hold heq)
        have hne₂ : m.next p ≠ .node new := hfresh (h.inRing_next hc)
        have hne₃ : m.next p ≠ .node old :=
          fun heq => hpp (h.next_inj hc hprev (heq.trans hnextprev.symm))
        simp only [Links.replace, update_of_ne hne₁, update_of_ne hne₂,
          update_of_ne hne₃]
        exact h.prev_next c p hc

/-- **Deleting** a linked node. -/
theorem Rings.del (h : Rings m lists) (hl : lists b = l₁ ++ old :: l₂) :
    Rings (m.del (lastLink (.head b) l₁) (.node old)) (update lists b (l₁ ++ l₂)) := by
  obtain ⟨hafter, hprev, hnextprev, hprevold⟩ := h.exists_prev hl
  have hnd : (l₁ ++ old :: l₂).Nodup := hl ▸ h.nodup b
  have hold : InRing lists b (.node old) := by show old ∈ lists b; rw [hl]; simp
  have hnext_of_ne : ∀ {p : Link β ν}, p ≠ lastLink (.head b) l₁ →
      (m.del (lastLink (.head b) l₁) (.node old)).next p = m.next p := by
    intro p hp
    simp [Links.del, hp]
  refine ⟨?_, h.nodup_update (List.nodup_middle.mp hnd).of_cons, h.disjoint_update ?_, ?_⟩
  · intro c
    by_cases hc : c = b
    · subst hc
      have hseg : Seg m.next (.head c) (l₁ ++ old :: l₂) (.head c) := hl ▸ h.seg c
      obtain ⟨hseg₁, hseg₂⟩ := seg_append.mp hseg
      have hmoved := hseg₁.retarget (by simp) (List.nodup_append.mp hnd).1 (m.next (.node old))
      rw [update_self]
      cases l₂ with
      | nil =>
          have hend : m.next (.node old) = .head c := hseg₂
          rw [List.append_nil]
          exact hend ▸ hmoved
      | cons x l₂ =>
          rw [seg_append]
          refine ⟨hseg₂.1 ▸ hmoved, hseg₂.2.congr (hnext_of_ne (hafter x (by simp))) ?_⟩
          intro n hn
          exact hnext_of_ne (hafter n (by simp [hn]))
    · refine h.seg_of_ne hc fun p hp => hnext_of_ne ?_
      rintro rfl
      exact hc (h.inRing_unique hp hprev)
  · intro n hn
    refine .inl ?_
    rw [hl]
    simp only [List.mem_append, List.mem_cons] at hn ⊢
    tauto
  · intro c p hp
    obtain ⟨n, hn, hnone, _⟩ | ⟨hpold, c, hc⟩ := h.inRing_without hl hp
    · exact absurd hn hnone
    by_cases hpp : p = lastLink (.head b) l₁
    · subst hpp
      simp [Links.del, h.next_ne hl]
    · rw [hnext_of_ne hpp]
      have hne₁ : m.next p ≠ m.next (.node old) := fun heq => hpold (h.next_inj hc hold heq)
      have hne₃ : m.next p ≠ .node old :=
        fun heq => hpp (h.next_inj hc hprev (heq.trans hnextprev.symm))
      simp only [Links.del, update_of_ne hne₁, update_of_ne hne₃]
      exact h.prev_next c p hc

end Linuxyz.ListHead
