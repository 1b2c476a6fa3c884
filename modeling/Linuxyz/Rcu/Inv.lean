import Linuxyz.Rcu.Heap
import Mathlib.Data.List.Perm.Basic

/-!
# Linuxyz.Rcu.Inv

The invariant of the map under all interleavings.

`Inv` joins the pointers (`Heap`), the fate of unlinked nodes (`Account`: each
is in exactly one of the stages pending, waiting, freed) and the open readers
(`ReaderOk`: every node a reader can still come to is linked, or its callback
is not registered yet, or it waits for this very reader).

`Outcome` says what one step can do, and `Inv.outcome` that every step is one
of its cases; what readers see of a step of anybody else is `Evolves`.
-/

namespace Linuxyz.Rcu

open ListHead
open Function (update update_self update_of_ne)

/-! ## the invariant -/

/-- How often a node is on its way to be freed, or freed. -/
def copies (s : State) (n : Nat) : Nat :=
  s.pending.count n + (s.callbacks.map Prod.fst).count n + s.freed.count n

/-- Every unlinked node is on its way exactly once, every other node never. -/
structure Account (s : State) (lists : UInt32 → List Nat) : Prop where
  linked : ∀ b n, n ∈ lists b → copies s n = 0
  unlinked : ∀ n, n < s.nextId → (∀ b, n ∉ lists b) → copies s n = 1
  fresh : ∀ n, s.nextId ≤ n → copies s n = 0

/-- Section `i` keeps node `n` from being freed. -/
def Guarded (s : State) (lists : UInt32 → List Nat) (i n : Nat) : Prop :=
  (∃ b, n ∈ lists b) ∨ n ∈ s.pending ∨ ∃ waits, (n, waits) ∈ s.callbacks ∧ i ∈ waits

/-- From `p`, section `i` stays in the bucket of its key and meets no node that
may be freed. -/
structure Trail (s : State) (lists : UInt32 → List Nat) (pos : Nat → Nat) (i : Nat)
    (key : Int32) (p : Ptr) : Prop where
  within : Within s pos (s.idx key) s.nextId p
  guarded : ∀ n, OnPath s.links.next p n → Guarded s lists i n

def ReaderOk (s : State) (lists : UInt32 → List Nat) (pos : Nat → Nat) (i : Nat) (r : Section) :
    Prop :=
  match r.pc with
  | .start => True
  | .test p => Trail s lists pos i r.key p
  | .advance n => Trail s lists pos i r.key (.node n)
  | .found n => n < s.nextId ∧ s.key n = r.key ∧ Guarded s lists i n
  | .notFound => True

structure Inv (s : State) (lists : UInt32 → List Nat) (pos : Nat → Nat) : Prop where
  heap : Heap s lists pos
  account : Account s lists
  sections : ∀ i r, s.sections i = some r → i < s.nextSection
  readers : ∀ i r, s.sections i = some r → ReaderOk s lists pos i r

theorem inv_makeCcmap (bcount : UInt32) : Inv (makeCcmap bcount) (fun _ => []) id where
  heap := heap_makeCcmap bcount
  account := ⟨fun _ _ _ => rfl, fun _ h => absurd h (Nat.not_lt_zero _), fun _ _ => rfl⟩
  sections := fun _ _ h => by cases h
  readers := fun _ _ h => by cases h

variable {s s' : State} {lists lists' : UInt32 → List Nat} {pos pos' : Nat → Nat}

/-- No node is freed twice. -/
theorem copies_le_one (h : Account s lists) (n : Nat) : copies s n ≤ 1 := by
  by_cases hlt : n < s.nextId
  · by_cases hl : ∃ b, n ∈ lists b
    · obtain ⟨b, hb⟩ := hl
      rw [h.linked b n hb]
      exact Nat.zero_le 1
    · exact Nat.le_of_eq (h.unlinked n hlt fun b hb => hl ⟨b, hb⟩)
  · rw [h.fresh n (Nat.le_of_not_lt hlt)]
    exact Nat.zero_le 1

/-- What a reader keeps is not freed. -/
theorem Account.not_freed (h : Account s lists) (hg : Guarded s lists i n) : n ∉ s.freed := by
  intro hf
  have hfreed : 0 < s.freed.count n := List.count_pos_iff.mpr hf
  have hone := copies_le_one h n
  rcases hg with ⟨b, hb⟩ | hp | ⟨waits, hc, _⟩
  · have hzero := h.linked b n hb
    unfold copies at hzero
    omega
  · have hpend : 0 < s.pending.count n := List.count_pos_iff.mpr hp
    unfold copies at hone
    omega
  · have hwait : 0 < (s.callbacks.map Prod.fst).count n :=
      List.count_pos_iff.mpr (List.mem_map.mpr ⟨(n, waits), hc, rfl⟩)
    unfold copies at hone
    omega

theorem Account.linked_not_freed (h : Account s lists) (b : UInt32) (n : Nat) (hn : n ∈ lists b) :
    n ∉ s.freed :=
  h.not_freed (i := 0) (.inl ⟨b, hn⟩)

/-! ## what one step can do -/

/-- The cases of a step: the state, the lists and the positions after it. -/
inductive Outcome (s : State) (lists : UInt32 → List Nat) (pos : Nat → Nat) :
    Act → State → (UInt32 → List Nat) → (Nat → Nat) → Prop where
  | noAlloc (key value : Int32) : Outcome s lists pos (.update key value false) s lists pos
  | add (key value : Int32) (hnone : ∀ n ∈ lists (s.idx key), s.key n ≠ key) :
      Outcome s lists pos (.update key value true) (s.add key value)
        (update lists (s.idx key) (s.nextId :: lists (s.idx key)))
        (update pos s.nextId s.nextId)
  | replace (key value : Int32) (old : Nat) (l₁ l₂ : List Nat)
      (hl : lists (s.idx key) = l₁ ++ old :: l₂)
      (hkey : s.key old = key) :
      Outcome s lists pos (.update key value true)
        (s.replace (lastLink (.head (s.idx key)) l₁) old value)
        (update lists (s.idx key) (l₁ ++ s.nextId :: l₂))
          (update pos s.nextId (pos old))
  | absent (key : Int32) (hnone : ∀ n ∈ lists (s.idx key), s.key n ≠ key) :
      Outcome s lists pos (.remove key) s lists pos
  | del (key : Int32) (old : Nat) (l₁ l₂ : List Nat) (hl : lists (s.idx key) = l₁ ++ old :: l₂)
      (hkey : s.key old = key) :
      Outcome s lists pos (.remove key) (s.del (lastLink (.head (s.idx key)) l₁) old)
        (update lists (s.idx key) (l₁ ++ l₂)) pos
  | callRcu (n : Nat) (hn : n ∈ s.pending) :
      Outcome s lists pos (.callRcu n)
        { s with
          pending := s.pending.erase n,
          callbacks := s.callbacks ++ [(n, s.openSections)] } lists pos
  | callback (i n : Nat) (waits : List Nat) (hi : s.callbacks[i]? = some (n, waits))
      (hw : ∀ j ∈ waits, s.sections j = none) :
      Outcome s lists pos (.callback i)
        { s with callbacks := s.callbacks.eraseIdx i, freed := s.freed ++ [n] } lists pos
  | readLock (key : Int32) :
      Outcome s lists pos (.readLock key)
        { s with
          sections := update s.sections s.nextSection (some ⟨key, .start⟩)
          nextSection := s.nextSection + 1 } lists pos
  | readStep (i : Nat) (r r' : Section) (hr : s.sections i = some r)
      (hstep : getStep s r = some r') :
      Outcome s lists pos (.readStep i) { s with
        sections := update s.sections i (some r') } lists pos
  | readUnlock (i : Nat) (r : Section) (hr : s.sections i = some r) (hdone : r.pc.done = true) :
      Outcome s lists pos (.readUnlock i) { s with
        sections := update s.sections i none } lists pos

/-- Every step has one of the outcomes. -/
theorem Inv.outcome (h : Inv s lists pos) (hs : step s a = some s') :
    ∃ lists' pos', Outcome s lists pos a s' lists' pos' := by
  have hlive := h.account.linked_not_freed
  cases a with
  | update key value alloc =>
      cases alloc with
      | false =>
          rw [step, h.heap.updateCcmap_of_alloc hlive] at hs
          cases hs
          exact ⟨_, _, .noAlloc key value⟩
      | true =>
          rcases h.heap.updateCcmap_cases hlive key value with ⟨hnone, heq⟩ |
            ⟨old, l₁, l₂, hl, hkey, heq⟩
          · rw [step, heq] at hs
            cases hs
            exact ⟨_, _, .add key value hnone⟩
          · rw [step, heq] at hs
            cases hs
            exact ⟨_, _, .replace key value old l₁ l₂ hl hkey⟩
  | remove key =>
      rcases h.heap.removeCcmap_cases hlive key with ⟨hnone, heq⟩ | ⟨old, l₁, l₂, hl, hkey, heq⟩
      · rw [step, heq] at hs
        cases hs
        exact ⟨_, _, .absent key hnone⟩
      · rw [step, heq] at hs
        cases hs
        exact ⟨_, _, .del key old l₁ l₂ hl hkey⟩
  | callRcu n =>
      rw [step, callRcu] at hs
      split at hs
      · next hn => cases hs; exact ⟨_, _, .callRcu n hn⟩
      · cases hs
  | callback i =>
      rw [step, ccmapCb, Option.bind_eq_some_iff] at hs
      obtain ⟨⟨n, waits⟩, hi, hs⟩ := hs
      dsimp only at hs
      split at hs
      · next hw =>
          cases hs
          exact ⟨_, _, .callback i n waits hi (by simpa using hw)⟩
      · cases hs
  | readLock key =>
      cases hs
      exact ⟨_, _, .readLock key⟩
  | readStep i =>
      rw [step, Option.bind_eq_some_iff] at hs
      obtain ⟨r, hr, hs⟩ := hs
      rw [Option.map_eq_some_iff] at hs
      obtain ⟨r', hstep, rfl⟩ := hs
      exact ⟨_, _, .readStep i r r' hr hstep⟩
  | readUnlock i =>
      rw [step, Option.bind_eq_some_iff] at hs
      obtain ⟨r, hr, hs⟩ := hs
      split at hs
      · next hdone => cases hs; exact ⟨_, _, .readUnlock i r hr hdone⟩
      · cases hs

/-! ## pointers and accounts -/

/-- Steps that touch neither links nor keys keep the lists. -/
theorem Heap.congr (h : Heap s lists pos) (s' : State) (hcount : s'.count = s.count)
    (hlinks : s'.links = s.links) (hkey : s'.key = s.key) (hnext : s'.nextId = s.nextId) :
    Heap s' lists pos := by
  obtain ⟨count, links, key, value, nextId, _⟩ := s
  obtain ⟨count', links', key', value', nextId', _⟩ := s'
  cases hcount
  cases hlinks
  cases hkey
  cases hnext
  exact ⟨h.rings, h.alloc, h.bucket,
    h.unique, fun n hn => ⟨(h.within n hn).head, (h.within n hn).node⟩, h.pos_le⟩

theorem Account.congr (h : Account s lists) (s' : State) (hnext : s'.nextId = s.nextId)
    (hcopies : ∀ n, copies s' n = copies s n) : Account s' lists where
  linked := fun b n hn => (hcopies n).trans (h.linked b n hn)
  unlinked := fun n hn hl => (hcopies n).trans (h.unlinked n (hnext ▸ hn) hl)
  fresh := fun n hn => (hcopies n).trans (h.fresh n (hnext ▸ hn))

/-- A node that leaves the lists starts on its way. -/
theorem copies_cons_pending (s' : State) (hp : s'.pending = old :: s.pending)
    (hc : s'.callbacks = s.callbacks) (hf : s'.freed = s.freed) (n : Nat) :
    copies s' n = copies s n + if n = old then 1 else 0 := by
  rw [copies, copies, hp, hc, hf, List.count_cons]
  by_cases hn : n = old
  · simp [hn]; omega
  · have hn' : old ≠ n := fun heq => hn heq.symm
    simp [hn, hn']

/-- A node that is unlinked is on its way to be freed, once. -/
theorem Account.unlink (h : Account s lists) (s' : State) (hold : old ∈ lists b)
    (holdlt : old < s.nextId) (hcopies : ∀ n, copies s' n = copies s n + if n = old then 1 else 0)
    (hle : s.nextId ≤ s'.nextId) (hmem : ∀ n, (∃ c, n ∈ lists' c) ↔
      s.nextId ≤ n ∧ n < s'.nextId ∨ (∃ c, n ∈ lists c) ∧ n ≠ old) : Account s' lists' where
  linked := by
    intro c n hn
    rw [hcopies]
    rcases (hmem n).mp ⟨c, hn⟩ with ⟨hge, _⟩ | ⟨⟨c, hc⟩, hne⟩
    · rw [h.fresh n hge, if_neg (by omega)]
    · rw [h.linked c n hc, if_neg hne]
  unlinked := by
    intro n hn hout
    have hnot := mt (hmem n).mpr fun hin => hout _ hin.choose_spec
    have hlt : n < s.nextId := by
      by_contra hge
      exact hnot (.inl ⟨Nat.le_of_not_lt hge, hn⟩)
    rw [hcopies]
    by_cases hne : n = old
    · rw [hne, h.linked b old hold, if_pos rfl]
    · rw [if_neg hne, h.unlinked n hlt fun c hc => hnot (.inr ⟨⟨c, hc⟩, hne⟩)]
  fresh := by
    intro n hn
    rw [hcopies, h.fresh n (Nat.le_trans hle hn), if_neg (by omega)]

theorem count_map_fst_eraseIdx (l : List (Nat × List Nat))
    (hi : l[i]? = some (n, waits)) (m : Nat) :
    ((l.eraseIdx i).map Prod.fst).count m + [n].count m = (l.map Prod.fst).count m := by
  obtain ⟨hlt, hget⟩ := List.getElem?_eq_some_iff.mp hi
  have hperm := (List.getElem_cons_eraseIdx_perm hlt).map Prod.fst
  rw [← hperm.count_eq m, hget, List.map_cons, List.count_singleton, List.count_cons]

/-- Every outcome keeps the lists and their order. -/
theorem Outcome.heap (ho : Outcome s lists pos a s' lists' pos') (h : Heap s lists pos) :
    Heap s' lists' pos' := by
  cases ho with
  | noAlloc => exact h
  | add key value hnone => exact h.add hnone value
  | replace key value old l₁ l₂ hl hkey => exact h.replace hl value
  | absent => exact h
  | del key old l₁ l₂ hl hkey => exact h.del hl
  | callRcu | callback | readLock | readStep | readUnlock => exact h.congr _ rfl rfl rfl rfl

/-- Every outcome keeps the account of the nodes. -/
theorem Outcome.account (ho : Outcome s lists pos a s' lists' pos') (h : Heap s lists pos)
    (hacc : Account s lists) : Account s' lists' := by
  cases ho with
  | noAlloc => exact hacc
  | absent => exact hacc
  | readLock | readStep | readUnlock => exact hacc.congr _ rfl fun _ => rfl
  | add key value hnone =>
      have hcopies : ∀ n, copies (s.add key value) n = copies s n := fun _ => rfl
      refine ⟨?_, ?_, ?_⟩
      · intro b n hn
        rw [hcopies]
        rcases mem_update_cons.mp hn with ⟨rfl, _⟩ | hmem
        · exact hacc.fresh _ (Nat.le_refl _)
        · exact hacc.linked b n hmem
      · intro n hn hout
        have hne : n ≠ s.nextId :=
          fun heq => hout (s.idx key) (mem_update_cons.mpr (.inl ⟨heq, rfl⟩))
        exact hacc.unlinked n (Nat.lt_of_le_of_ne (Nat.le_of_lt_succ hn) hne) fun b hb =>
          hout b (mem_update_cons.mpr (.inr hb))
      · intro n hn
        exact hacc.fresh n (Nat.le_of_succ_le hn)
  | replace key value old l₁ l₂ hl hkey =>
      have hold : old ∈ lists (s.idx key) := by rw [hl]; simp
      refine hacc.unlink _ hold (h.alloc _ _ hold) (copies_cons_pending _ rfl rfl rfl)
        (Nat.le_succ _) ?_
      intro n
      simp only [h.mem_update_replace hl]
      constructor
      · rintro ⟨c, ⟨rfl, _⟩ | ⟨hc, hne⟩⟩
        · exact .inl ⟨Nat.le_refl _, Nat.lt_succ_self _⟩
        · exact .inr ⟨⟨c, hc⟩, hne⟩
      · rintro (⟨hge, hlt⟩ | ⟨⟨c, hc⟩, hne⟩)
        · exact ⟨s.idx key, .inl ⟨Nat.le_antisymm (Nat.le_of_lt_succ hlt) hge, rfl⟩⟩
        · exact ⟨c, .inr ⟨hc, hne⟩⟩
  | del key old l₁ l₂ hl hkey =>
      have hold : old ∈ lists (s.idx key) := by rw [hl]; simp
      refine hacc.unlink _ hold (h.alloc _ _ hold) (copies_cons_pending _ rfl rfl rfl)
        (Nat.le_refl _) ?_
      intro n
      simp only [h.mem_update_del hl]
      constructor
      · rintro ⟨c, hc, hne⟩
        exact .inr ⟨⟨c, hc⟩, hne⟩
      · rintro (⟨hge, hlt⟩ | ⟨⟨c, hc⟩, hne⟩)
        · exact absurd hlt (Nat.not_lt_of_le hge)
        · exact ⟨c, hc, hne⟩
  | callRcu n hn =>
      refine hacc.congr _ rfl fun m => ?_
      have hpend : (s.pending.erase n).count m + [n].count m = s.pending.count m := by
        rw [← (List.perm_cons_erase hn).symm.count_eq m, List.count_singleton, List.count_cons]
      simp only [copies, List.map_append, List.count_append, List.map_cons, List.map_nil]
      omega
  | callback i n waits hi hw =>
      refine hacc.congr _ rfl fun m => ?_
      have hback := count_map_fst_eraseIdx s.callbacks hi m
      simp only [copies, List.count_append]
      omega

/-! ## what readers see of a step -/

/-- Every step as an open reader sees it: nodes keep their contents, a path
meets only nodes it met or nodes linked now, it keeps every key it met unless
the key is gone from the map, and nothing kept for the reader is given up. -/
structure Evolves (s : State) (lists : UInt32 → List Nat) (s' : State)
    (lists' : UInt32 → List Nat) : Prop where
  count : s'.count = s.count
  nextId : s.nextId ≤ s'.nextId
  key : ∀ n, n < s.nextId → s'.key n = s.key n
  value : ∀ n, n < s.nextId → s'.value n = s.value n
  path : ∀ p n, Allocated s p → OnPath s'.links.next p n →
    OnPath s.links.next p n ∨ ∃ b, n ∈ lists' b
  keeps : ∀ p n, Allocated s p → OnPath s.links.next p n →
    (∃ n', OnPath s'.links.next p n' ∧ s'.key n' = s.key n) ∨ ∀ b n', n' ∈ lists' b →
    s'.key n' ≠ s.key n
  guarded : ∀ i r n, i < s.nextSection → s.sections i = some r → Guarded s lists i n →
    Guarded s' lists' i n

/-- A step that leaves the pointers and the nodes alone. -/
theorem Evolves.of_same (s' : State) (hcount : s'.count = s.count) (hlinks : s'.links = s.links)
    (hkey : s'.key = s.key) (hvalue : s'.value = s.value) (hnext : s'.nextId = s.nextId)
    (hguarded : ∀ i r n, i < s.nextSection → s.sections i = some r → Guarded s lists i n →
      Guarded s' lists i n) :
    Evolves s lists s' lists where
  count := hcount
  nextId := Nat.le_of_eq hnext.symm
  key := fun _ _ => by rw [hkey]
  value := fun _ _ => by rw [hvalue]
  path := fun p n _ hpath => .inl (hlinks ▸ hpath)
  keeps := fun p n _ hpath => .inl ⟨n, hlinks ▸ hpath, by rw [hkey]⟩
  guarded := hguarded

theorem mem_openSections (hi : i < s.nextSection) (hr : s.sections i = some r) :
    i ∈ s.openSections := by
  simp [State.openSections, hi, hr]

/-- What readers see of a node that is added. -/
theorem evolves_add (h : Heap s lists pos) (key value : Int32) :
    Evolves s lists (s.add key value)
    (update lists (s.idx key) (s.nextId :: lists (s.idx key))) := by
  have hsame : ∀ p, Allocated s p → ∀ n, OnPath (s.add key value).links.next p n ↔
      OnPath s.links.next p n := by
    intro p hp n
    apply onPath_congr
    intro x hx
    exact add_next_of_ne s key value (Nat.ne_of_lt (h.onPath_within hp hx))
  have hkey : ∀ n, n < s.nextId → (s.add key value).key n = s.key n :=
    fun n hn => update_nextId_of_lt hn _
  refine ⟨rfl, Nat.le_succ _, hkey, fun n hn => update_nextId_of_lt hn _, ?_, ?_, ?_⟩
  · intro p n hp hpath
    exact .inl ((hsame p hp n).mp hpath)
  · intro p n hp hpath
    exact .inl ⟨n, (hsame p hp n).mpr hpath, hkey n (h.onPath_within hp hpath)⟩
  · rintro i r n _ _ (⟨b, hb⟩ | hrest)
    · exact .inl ⟨b, mem_update_cons.mpr (.inr hb)⟩
    · exact .inr hrest

/-- What readers see of a node that is replaced. -/
theorem evolves_replace (h : Heap s lists pos) (hl : lists b = l₁ ++ old :: l₂) (value : Int32) :
    Evolves s lists (s.replace (lastLink (.head b) l₁) old value)
      (update lists b (l₁ ++ s.nextId :: l₂)) := by
  have hnew := h.replace_next_new hl value
  have hstep := fun x (hx : x ≠ s.nextId) => h.replace_next_of_ne hl value hx
  have hkey : ∀ n, n < s.nextId → (s.replace (lastLink (.head b) l₁) old value).key n = s.key n :=
    fun n hn => update_nextId_of_lt hn _
  have hlinked : s.nextId ∈ update lists b (l₁ ++ s.nextId :: l₂) b := by
    rw [update_self]; simp
  refine ⟨rfl, Nat.le_succ _, hkey, fun n hn => update_nextId_of_lt hn _, ?_, ?_, ?_⟩
  · intro p n hp hpath
    cases onPath_of_replace hnew hstep (h.not_onPath_new hp) hpath with
    | inl hold => exact .inl hold
    | inr hn => exact .inr ⟨b, hn.1 ▸ hlinked⟩
  · intro p n hp hpath
    refine .inl ?_
    cases hpath.replace hnew (h.replace_next_old hl value) hstep (h.not_onPath_new hp) with
    | inl hsame => exact ⟨n, hsame, hkey n (h.onPath_within hp hpath)⟩
    | inr hn =>
        -- the new node has the key of the old one
        refine ⟨s.nextId, hn.2, ?_⟩
        rw [hn.1]
        exact update_self ..
  · rintro i r n _ _ (⟨c, hc⟩ | hpend | hwait)
    · by_cases hn : n = old
      · exact .inr (.inl (by rw [hn]; exact List.mem_cons_self))
      · exact .inl ⟨c, (h.mem_update_replace hl).mpr (.inr ⟨hc, hn⟩)⟩
    · exact .inr (.inl (List.mem_cons_of_mem _ hpend))
    · exact .inr (.inr hwait)

/-- What readers see of a node that is deleted. -/
theorem evolves_del (h : Heap s lists pos) (hl : lists b = l₁ ++ old :: l₂) :
    Evolves s lists (s.del (lastLink (.head b) l₁) old) (update lists b (l₁ ++ l₂)) := by
  have hold : old ∈ lists b := by rw [hl]; simp
  refine ⟨rfl, Nat.le_refl _, fun _ _ => rfl, fun _ _ => rfl, ?_, ?_, ?_⟩
  · intro p n _ hpath
    exact .inl (onPath_of_del (h.del_next hl) hpath)
  · intro p n _ hpath
    by_cases hn : n = old
    · -- the deleted key is gone from every bucket
      refine .inr fun c n' hn' heq => ?_
      obtain ⟨hmem, hne⟩ := (h.mem_update_del hl).mp hn'
      have heq' : s.key n' = s.key old := by rw [← hn]; exact heq
      have hc : c = b := by rw [← h.bucket _ _ hmem, ← h.bucket _ _ hold, heq']
      exact hne (h.unique b n' old (hc ▸ hmem) hold heq')
    · exact .inl ⟨n, hpath.del (h.del_next_old hl) (h.del_next hl) hn, rfl⟩
  · rintro i r n _ _ (⟨c, hc⟩ | hpend | hwait)
    · by_cases hn : n = old
      · exact .inr (.inl (by rw [hn]; exact List.mem_cons_self))
      · exact .inl ⟨c, (h.mem_update_del hl).mpr ⟨hc, hn⟩⟩
    · exact .inr (.inl (List.mem_cons_of_mem _ hpend))
    · exact .inr (.inr hwait)

/-- **Every step evolves** the map as readers see it. -/
theorem Outcome.evolves (ho : Outcome s lists pos a s' lists' pos') (h : Heap s lists pos) :
    Evolves s lists s' lists' := by
  cases ho with
  | noAlloc | absent | readLock | readStep | readUnlock =>
      exact .of_same _ rfl rfl rfl rfl rfl fun _ _ _ _ _ hg => hg
  | add key value hnone => exact evolves_add h key value
  | replace key value old l₁ l₂ hl hkey => exact evolves_replace h hl value
  | del key old l₁ l₂ hl hkey => exact evolves_del h hl
  | callRcu m hm =>
      refine .of_same _ rfl rfl rfl rfl rfl ?_
      rintro i r n hi hr (hlinked | hpend | ⟨waits, hw, hin⟩)
      · exact .inl hlinked
      · by_cases hn : n = m
        · -- the call records every open section
          refine .inr (.inr ⟨s.openSections, ?_, mem_openSections hi hr⟩)
          rw [hn]
          exact List.mem_append_right _ (List.mem_singleton.mpr rfl)
        · exact .inr (.inl ((List.mem_erase_of_ne hn).mpr hpend))
      · exact .inr (.inr ⟨waits, List.mem_append_left _ hw, hin⟩)
  | callback j m waits hj hwaits =>
      refine .of_same _ rfl rfl rfl rfl rfl ?_
      rintro i r n hi hr (hlinked | hpend | ⟨waits', hw, hin⟩)
      · exact .inl hlinked
      · exact .inr (.inl hpend)
      · -- a callback that waits for an open section is not the one that ran
        refine .inr (.inr ⟨waits', ?_, hin⟩)
        obtain ⟨hlt, hget⟩ := List.getElem?_eq_some_iff.mp hj
        have hmem := (List.getElem_cons_eraseIdx_perm hlt).mem_iff.mpr hw
        rw [hget] at hmem
        cases List.mem_cons.mp hmem with
        | inl heq =>
            cases heq
            rw [hwaits i hin] at hr
            cases hr
        | inr hrest => exact hrest

/-! ## readers -/

theorem Within.allocated (h : Within s pos b bound p) : Allocated s p := fun n hn => (h.node n hn).1

theorem Evolves.idx (he : Evolves s lists s' lists') (key : Int32) : s'.idx key = s.idx key := by
  rw [State.idx, State.idx, he.count]

/-- A reader stays on its trail whatever writers do. -/
theorem Trail.evolve (he : Evolves s lists s' lists') (hpos : ∀ n, pos' n ≤ n)
    (hi : i < s.nextSection) (hr : s.sections i = some r) (h : Trail s lists pos i key p) :
    Trail s' lists' pos' i key p where
  within := by
    constructor
    · intro c hc
      rw [he.idx]
      exact h.within.head c hc
    · intro x hx
      obtain ⟨hlt, hidx, _⟩ := h.within.node x hx
      refine ⟨Nat.lt_of_lt_of_le hlt he.nextId, ?_, ?_⟩
      · rw [he.key x hlt, he.idx, he.idx]
        exact hidx
      · exact Nat.lt_of_le_of_lt (hpos x) (Nat.lt_of_lt_of_le hlt he.nextId)
  guarded := by
    intro n hn
    cases he.path p n h.within.allocated hn with
    | inl hold => exact he.guarded i r n hi hr (h.guarded n hold)
    | inr hlinked => exact .inl hlinked

/-- What holds of an open reader holds after any step of somebody else. -/
theorem ReaderOk.evolve (he : Evolves s lists s' lists') (hpos : ∀ n, pos' n ≤ n)
    (hi : i < s.nextSection) (hopen : s.sections i = some r₀) (h : ReaderOk s lists pos i r) :
    ReaderOk s' lists' pos' i r := by
  obtain ⟨key, pc⟩ := r
  cases pc with
  | start => trivial
  | test p | advance n => exact Trail.evolve he hpos hi hopen h
  | found n =>
      obtain ⟨hlt, hkey, hg⟩ := h
      exact ⟨Nat.lt_of_lt_of_le hlt he.nextId, (he.key n hlt).trans hkey,
        he.guarded i _ n hi hopen hg⟩
  | notFound => trivial

/-- The reader's own step. -/
theorem ReaderOk.getStep (h : Inv s lists pos) (hok : ReaderOk s lists pos i r)
    (hs : getStep s r = some r') : ReaderOk s lists pos i r' := by
  obtain ⟨key, pc⟩ := r
  cases pc with
  | start =>
      rw [getStep_start] at hs
      cases hs
      exact ⟨h.heap.within_head _, fun n hn => .inl ⟨_, (h.heap.onPath_head _).mp hn⟩⟩
  | test p =>
      cases p with
      | head b =>
          rw [getStep_head] at hs
          split at hs
          · cases hs; trivial
          · cases hs
      | node n =>
          have hg := Trail.guarded hok n .here
          rw [getStep_node, readKey_of_not_freed (h.account.not_freed hg), Option.map_some,
            Option.some.injEq] at hs
          subst hs
          split
          · next hkey => exact ⟨((Trail.within hok).node n rfl).1, hkey, hg⟩
          · exact hok
  | advance n =>
      have hg := Trail.guarded hok n .here
      obtain ⟨hlt, hidx, _⟩ := (Trail.within hok).node n rfl
      rw [getStep_advance, readNext_of_not_freed (h.account.not_freed hg), Option.map_some,
        Option.some.injEq] at hs
      subst hs
      have hnext :=
        (h.heap.within n hlt).mono (Nat.le_of_lt (Nat.lt_of_le_of_lt (h.heap.pos_le n) hlt))
      rw [hidx] at hnext
      exact ⟨hnext, fun x hx => Trail.guarded hok x (.there hx)⟩
  | found n => cases hs
  | notFound => cases hs

/-- Every outcome keeps each reader in the bucket of its key, on nodes that are not
freed. -/
theorem Outcome.readers (ho : Outcome s lists pos a s' lists' pos') (h : Inv s lists pos) (i : Nat)
    (r : Section) (hr : s'.sections i = some r) :
    i < s'.nextSection ∧ ReaderOk s' lists' pos' i r := by
  have he := ho.evolves h.heap
  have hpos := (ho.heap h.heap).pos_le
  have hkeep : ∀ {r₀}, s.sections i = some r₀ → ReaderOk s lists pos i r →
      ReaderOk s' lists' pos' i r :=
    fun hr₀ hok => hok.evolve he hpos (h.sections i _ hr₀) hr₀
  cases ho with
  | noAlloc | add | replace | absent | del | callRcu | callback =>
      exact ⟨h.sections i r hr, hkeep hr (h.readers i r hr)⟩
  | readLock key =>
      by_cases hi : i = s.nextSection
      · rw [hi] at hr ⊢
        simp only [update_self, Option.some.injEq] at hr
        rw [← hr]
        exact ⟨Nat.lt_succ_self _, trivial⟩
      · simp only [update_of_ne hi] at hr
        exact ⟨Nat.lt_succ_of_lt (h.sections i r hr), hkeep hr (h.readers i r hr)⟩
  | readStep j r₀ r' hr₀ hstep =>
      by_cases hi : i = j
      · subst hi
        simp only [update_self, Option.some.injEq] at hr
        subst hr
        exact ⟨h.sections i _ hr₀, hkeep hr₀ ((h.readers i r₀ hr₀).getStep h hstep)⟩
      · simp only [update_of_ne hi] at hr
        exact ⟨h.sections i r hr, hkeep hr (h.readers i r hr)⟩
  | readUnlock j r₀ hr₀ hdone =>
      by_cases hi : i = j
      · subst hi
        simp at hr
      · simp only [update_of_ne hi] at hr
        exact ⟨h.sections i r hr, hkeep hr (h.readers i r hr)⟩

/-! ## every run -/

theorem Outcome.inv (ho : Outcome s lists pos a s' lists' pos') (h : Inv s lists pos) :
    Inv s' lists' pos' where
  heap := ho.heap h.heap
  account := ho.account h.heap h.account
  sections := fun i r hr => (ho.readers h i r hr).1
  readers := fun i r hr => (ho.readers h i r hr).2

theorem Inv.of_step (h : Inv s lists pos) (hs : step s a = some s') :
    ∃ lists' pos', Outcome s lists pos a s' lists' pos' ∧ Inv s' lists' pos' := by
  obtain ⟨lists', pos', ho⟩ := h.outcome hs
  exact ⟨lists', pos', ho, ho.inv h⟩

/-- **The invariant** holds in every reachable state. -/
theorem inv_of_reachable (h : (rcuMap bcount).Reachable s) : ∃ lists pos, Inv s lists pos := by
  apply h.invariant
  · rintro s rfl
    exact ⟨_, _, inv_makeCcmap bcount⟩
  · rintro s a s' ⟨lists, pos, hinv⟩ hs
    obtain ⟨lists', pos', _, hinv'⟩ := hinv.of_step hs
    exact ⟨lists', pos', hinv'⟩

end Linuxyz.Rcu
