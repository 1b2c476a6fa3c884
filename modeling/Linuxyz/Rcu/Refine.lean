import Linuxyz.Rcu.Inv

/-!
# Linuxyz.Rcu.Refine

The RCU map is a finite map.

The abstract map after a run is computed from the actions alone: a successful
update sets its key, a remove clears it, and everything else, a failed
allocation included, leaves the map as it is (`mapAfter`).  `Refines` relates
it to the linked nodes; every step keeps the relation, so a lookup that nobody
disturbs returns what the abstract map says.
-/

namespace Linuxyz.Rcu

open ListHead

/-! ## the abstract map -/

/-- What an action does to the abstract map. -/
def applyAct (m : Int32 → Option Int32) : Act → Int32 → Option Int32
  | .update key value true => Function.update m key (some value)
  | .remove key => Function.update m key none
  | _ => m

/-- The abstract map after a sequence of actions. -/
def mapAfter (acts : List Act) : Int32 → Option Int32 := acts.foldl applyAct fun _ => none

variable {s s' : State} {lists lists' : UInt32 → List Nat} {pos pos' : Nat → Nat}

/-- A linked node holds `key` with `value`. -/
def Holds (s : State) (lists : UInt32 → List Nat) (key value : Int32) : Prop :=
  ∃ b n, n ∈ lists b ∧ s.key n = key ∧ s.value n = value

/-- The linked nodes are the abstract map. -/
def Refines (s : State) (lists : UInt32 → List Nat) (m : Int32 → Option Int32) : Prop :=
  ∀ key value, m key = some value ↔ Holds s lists key value

theorem refines_makeCcmap (bcount : UInt32) :
    Refines (makeCcmap bcount) (fun _ => []) fun _ => none := by
  intro key value
  constructor
  · intro h; cases h
  · rintro ⟨b, n, hn, _⟩; cases hn

/-! ## what a section does to the map -/

/-- A key that its bucket does not hold is nowhere. -/
theorem Heap.not_holds (h : Heap s lists pos) (hnone : ∀ n ∈ lists (s.idx key), s.key n ≠ key)
    (value : Int32) : ¬ Holds s lists key value := by
  rintro ⟨b, n, hn, hkey, _⟩
  have hb : b = s.idx key := by rw [← h.bucket b n hn, hkey]
  exact hnone n (hb ▸ hn) hkey

/-- What the map holds after a key is added. -/
theorem holds_add (h : Heap s lists pos) (hnone : ∀ n ∈ lists (s.idx key), s.key n ≠ key)
    (value : Int32) (k v : Int32) :
    Holds (s.add key value)
    (Function.update lists (s.idx key) (s.nextId :: lists (s.idx key))) k v ↔
      k = key ∧ v = value ∨ k ≠ key ∧ Holds s lists k v := by
  have hkey : (s.add key value).key s.nextId = key := Function.update_self ..
  have hvalue : (s.add key value).value s.nextId = value := Function.update_self ..
  have hkeys : ∀ n, n < s.nextId → (s.add key value).key n = s.key n :=
    fun n hn => update_nextId_of_lt hn _
  have hvalues : ∀ n, n < s.nextId → (s.add key value).value n = s.value n :=
    fun n hn => update_nextId_of_lt hn _
  constructor
  · rintro ⟨b, n, hn, rfl, rfl⟩
    rcases mem_update_cons.mp hn with ⟨rfl, _⟩ | hmem
    · exact .inl ⟨hkey, hvalue⟩
    · have hlt := h.alloc b n hmem
      have hholds : Holds s lists ((s.add key value).key n) ((s.add key value).value n) :=
        ⟨b, n, hmem, (hkeys n hlt).symm, (hvalues n hlt).symm⟩
      refine .inr ⟨?_, hholds⟩
      intro heq
      rw [heq] at hholds
      exact h.not_holds hnone _ hholds
  · rintro (⟨rfl, rfl⟩ | ⟨_, b, n, hn, rfl, rfl⟩)
    · exact ⟨s.idx k, s.nextId, mem_update_cons.mpr (.inl ⟨rfl, rfl⟩), hkey, hvalue⟩
    · have hlt := h.alloc b n hn
      exact ⟨b, n, mem_update_cons.mpr (.inr hn), hkeys n hlt, hvalues n hlt⟩

/-- The node of a key is the only one. -/
theorem Heap.eq_of_key (h : Heap s lists pos) (hold : old ∈ lists b) (hn : n ∈ lists c)
    (hkey : s.key n = s.key old) : n = old := by
  have hc : c = b := by rw [← h.bucket c n hn, ← h.bucket b old hold, hkey]
  exact h.unique b n old (hc ▸ hn) hold hkey

/-- What the map holds after the value of a key is replaced. -/
theorem holds_replace (h : Heap s lists pos) (hl : lists b = l₁ ++ old :: l₂) (value k v : Int32) :
    Holds (s.replace (lastLink (.head b) l₁) old value)
    (Function.update lists b (l₁ ++ s.nextId :: l₂)) k v ↔
      k = s.key old ∧ v = value ∨ k ≠ s.key old ∧ Holds s lists k v := by
  have hold : old ∈ lists b := by rw [hl]; simp
  have hkey : (s.replace (lastLink (.head b) l₁) old value).key s.nextId = s.key old :=
    Function.update_self ..
  have hvalue : (s.replace (lastLink (.head b) l₁) old value).value s.nextId = value :=
    Function.update_self ..
  have hkeys : ∀ n, n < s.nextId → (s.replace (lastLink (.head b) l₁) old value).key n = s.key n :=
    fun n hn => update_nextId_of_lt hn _
  have hvalues : ∀ n, n < s.nextId →
      (s.replace (lastLink (.head b) l₁) old value).value n = s.value n :=
    fun n hn => update_nextId_of_lt hn _
  constructor
  · rintro ⟨c, n, hn, rfl, rfl⟩
    rcases (h.mem_update_replace hl).mp hn with ⟨rfl, _⟩ | ⟨hmem, hne⟩
    · exact .inl ⟨hkey, hvalue⟩
    · have hlt := h.alloc c n hmem
      refine .inr ⟨?_, c, n, hmem, (hkeys n hlt).symm, (hvalues n hlt).symm⟩
      rw [hkeys n hlt]
      exact fun heq => hne (h.eq_of_key hold hmem heq)
  · rintro (⟨rfl, rfl⟩ | ⟨hk, c, n, hn, rfl, rfl⟩)
    · exact ⟨b, s.nextId, (h.mem_update_replace hl).mpr (.inl ⟨rfl, rfl⟩), hkey, hvalue⟩
    · have hlt := h.alloc c n hn
      refine ⟨c, n, (h.mem_update_replace hl).mpr (.inr ⟨hn, ?_⟩), hkeys n hlt, hvalues n hlt⟩
      rintro rfl
      exact hk rfl

/-- What the map holds after a key is deleted. -/
theorem holds_del (h : Heap s lists pos) (hl : lists b = l₁ ++ old :: l₂) (k v : Int32) :
    Holds (s.del (lastLink (.head b) l₁) old) (Function.update lists b (l₁ ++ l₂)) k v ↔
      k ≠ s.key old ∧ Holds s lists k v := by
  have hold : old ∈ lists b := by rw [hl]; simp
  constructor
  · rintro ⟨c, n, hn, rfl, rfl⟩
    obtain ⟨hmem, hne⟩ := (h.mem_update_del hl).mp hn
    exact ⟨fun heq => hne (h.eq_of_key hold hmem heq), c, n, hmem, rfl, rfl⟩
  · rintro ⟨hk, c, n, hn, rfl, rfl⟩
    refine ⟨c, n, (h.mem_update_del hl).mpr ⟨hn, ?_⟩, rfl, rfl⟩
    rintro rfl
    exact hk rfl

/-- Setting a key in the abstract map. -/
theorem update_eq_some_iff (m : Int32 → Option Int32) (key k v : Int32) (o : Option Int32) :
    Function.update m key o k = some v ↔ k = key ∧ o = some v ∨ k ≠ key ∧ m k = some v := by
  by_cases hk : k = key
  · subst hk
    simp
  · simp [hk]

/-- **Every step refines** the abstract one. -/
theorem Outcome.refines (ho : Outcome s lists pos a s' lists' pos') (h : Heap s lists pos)
    (href : Refines s lists m) : Refines s' lists' (applyAct m a) := by
  cases ho with
  | noAlloc | callRcu | callback | readLock | readStep | readUnlock => exact href
  | add key value hnone =>
      intro k v
      rw [applyAct, update_eq_some_iff, holds_add h hnone, href k v, Option.some.injEq,
        eq_comm (b := v)]
  | replace key value old l₁ l₂ hl hkey =>
      intro k v
      rw [applyAct, update_eq_some_iff, holds_replace h hl, href k v, hkey, Option.some.injEq,
        eq_comm (b := v)]
  | absent key hnone =>
      intro k v
      rw [applyAct, update_eq_some_iff, ← href k v]
      constructor
      · rintro (⟨_, hv⟩ | ⟨_, hm⟩)
        · cases hv
        · exact hm
      · intro hm
        refine .inr ⟨?_, hm⟩
        rintro rfl
        exact h.not_holds hnone v ((href k v).mp hm)
  | del key old l₁ l₂ hl hkey =>
      intro k v
      rw [applyAct, update_eq_some_iff, holds_del h hl, href k v, hkey]
      simp

/-! ## every run -/

/-- Runs keep the invariant and the refinement together. -/
theorem refines_of_run (h : Inv s lists pos) (href : Refines s lists m) {acts : List Act}
    (hrun : (rcuMap bcount).run s acts = some s') :
    ∃ lists' pos', Inv s' lists' pos' ∧ Refines s' lists' (acts.foldl applyAct m) ∧
      s'.count = s.count := by
  induction acts generalizing s lists pos m with
  | nil =>
      obtain rfl : s = s' := Option.some.inj hrun
      exact ⟨lists, pos, h, href, rfl⟩
  | cons a acts ih =>
      rw [System.run_cons, Option.bind_eq_some_iff] at hrun
      obtain ⟨s₁, hs₁, hrest⟩ := hrun
      obtain ⟨lists₁, pos₁, ho, hinv₁⟩ := h.of_step hs₁
      obtain ⟨lists', pos', hinv', href', hcount⟩ := ih hinv₁ (ho.refines h.heap href) hrest
      exact ⟨lists', pos', hinv', href', hcount.trans (ho.evolves h.heap).count⟩

/-- Node `n` is linked in bucket `b`: the bucket's head leads to it. -/
def LinkedIn (s : State) (b : UInt32) (n : Nat) : Prop :=
  OnPath s.links.next (s.links.next (.head b)) n

/-- A lookup nobody disturbs returns what the abstract map holds. -/
theorem Inv.getCcmapRcu (h : Inv s lists pos) (href : Refines s lists m) (key : Int32) :
    ∃ r, getCcmapRcu s key = some r ∧ r.map s.value = m key := by
  refine ⟨_, h.heap.getCcmapRcu_eq h.account.linked_not_freed key, ?_⟩
  rcases find?_cases (s := s) (lists (s.idx key)) key with ⟨hf, hnone⟩ | ⟨n, l₁, l₂, hf, hl, hkey⟩
  · rw [hf, Option.map_none]
    cases hm : m key with
    | none => rfl
    | some v => exact absurd ((href key v).mp hm) (h.heap.not_holds hnone v)
  · rw [hf, Option.map_some]
    exact ((href key (s.value n)).mpr ⟨_, n, by rw [hl]; simp, hkey, rfl⟩).symm

/-- The bucket of a key exists. -/
theorem idx_lt_count (hcount : 0 < s.count) (key : Int32) : s.idx key < s.count :=
  UInt32.mod_lt _ hcount

/-- **The RCU map refines a finite map**: after every interleaving of updates
and removes, with readers and callbacks in between, each key has at most one
linked node, in the bucket of its hash; an undisturbed lookup returns the value
of the last successful update not followed by a remove, and `NULL` if there is
none; an update whose allocation fails changes nothing and returns `-1`; and
every other call returns. -/
theorem rcu_map_refines (bcount : UInt32) (hb : 0 < bcount) (acts : List Act) (s : State)
    (hrun : (rcuMap bcount).run (makeCcmap bcount) acts = some s) :
    (∀ b n, LinkedIn s b n → b = hashfunc (s.key n).toUInt32 bcount ∧ b < bcount) ∧
      (∀ b b' n n', LinkedIn s b n → LinkedIn s b' n' → s.key n = s.key n' → n = n') ∧
      (∀ key, ∃ r, getCcmapRcu s key = some r ∧ r.map s.value = mapAfter acts key) ∧
      (∀ key value, updateCcmap s key value false = some (s, -1)) ∧
      (∀ key value, ∃ s', updateCcmap s key value true = some (s', ((s.idx key).toNat : Int))) ∧
      (∀ key, ∃ s' result, removeCcmap s key = some (s', result)) := by
  obtain ⟨lists, pos, hinv, href, hcount⟩ :=
    refines_of_run (inv_makeCcmap bcount) (refines_makeCcmap bcount) hrun
  have hcount : s.count = bcount := hcount
  have hlinked : ∀ {b n}, LinkedIn s b n → n ∈ lists b := fun h => (hinv.heap.onPath_head _).mp h
  have hlive := hinv.account.linked_not_freed
  refine ⟨?_, ?_, hinv.getCcmapRcu href, hinv.heap.updateCcmap_of_alloc hlive, ?_, ?_⟩
  · intro b n hn
    have hbucket : s.idx (s.key n) = b := hinv.heap.bucket b n (hlinked hn)
    have hlt := idx_lt_count (hcount.symm ▸ hb) (s.key n)
    rw [hbucket, hcount] at hlt
    exact ⟨by rw [← hbucket, State.idx, hcount], hlt⟩
  · intro b b' n n' hn hn' hkey
    exact hinv.heap.eq_of_key (hlinked hn') (hlinked hn) hkey
  · intro key value
    rcases hinv.heap.updateCcmap_cases hlive key value with ⟨_, heq⟩ | ⟨_, _, _, _, _, heq⟩
    · exact ⟨_, heq⟩
    · exact ⟨_, heq⟩
  · intro key
    rcases hinv.heap.removeCcmap_cases hlive key with ⟨_, heq⟩ | ⟨_, _, _, _, _, heq⟩
    · exact ⟨_, _, heq⟩
    · exact ⟨_, _, heq⟩

/-- Three calls on one bucket: key `1` set twice, key `2` never. -/
theorem rcu_map_refines_twice :
    ∃ s, (rcuMap 1).run (makeCcmap 1) [.update 1 5 true, .update 1 7 true, .remove 2] = some s ∧
      (∃ r, getCcmapRcu s 1 = some r ∧ r.map s.value = some 7) ∧
      ∃ r, getCcmapRcu s 2 = some r ∧ r.map s.value = none := by
  obtain ⟨s, hs⟩ :
      ∃ s, (rcuMap 1).run (makeCcmap 1) [.update 1 5 true, .update 1 7 true, .remove 2] = some s :=
    ⟨_, rfl⟩
  have hget := (rcu_map_refines 1 (by decide) _ s hs).2.2.1
  exact ⟨s, hs, hget 1, hget 2⟩

end Linuxyz.Rcu
