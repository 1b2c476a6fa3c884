import Linuxyz.Rcu.Refine
import Mathlib.Data.List.Induction

/-!
# Linuxyz.Rcu.Reader

What a reader of the RCU map can rely on, whatever writers do meanwhile.

`Track` follows one traversal from its `rcu_read_lock`: the key it looks for is
still ahead of it unless the key was absent from the map at some moment since,
and every node ahead holds a key and a value that the map held at some moment
since.  Both survive the reader's own steps and every other step
(`Outcome.evolves`), so they can be read off where the traversal ends.
-/

namespace Linuxyz.Rcu

open ListHead

/-! ## a traversal and the states it saw -/

/-- No linked node has the key. -/
def Absent (s : State) (key : Int32) : Prop := ∀ b n, LinkedIn s b n → s.key n ≠ key

/-- A linked node has the key and the value. -/
def Present (s : State) (key value : Int32) : Prop :=
  ∃ b n, LinkedIn s b n ∧ s.key n = key ∧ s.value n = value

/-- From `p` on, key `key` is ahead or was absent, and what is ahead was held. -/
structure OnTrack (s : State) (absent : Prop) (held : Int32 → Int32 → Prop) (key : Int32)
    (p : Ptr) : Prop where
  ahead : absent ∨ ∃ n, OnPath s.links.next p n ∧ s.key n = key
  held : ∀ n, OnPath s.links.next p n → held (s.key n) (s.value n)

/-- The traversal of one reader, given whether its key was absent at some moment
and what the map held at some moment. -/
def Track (s : State) (absent : Prop) (held : Int32 → Int32 → Prop) (r : Section) : Prop :=
  match r.pc with
  | .start => True
  | .test p => OnTrack s absent held r.key p
  | .advance n => s.key n ≠ r.key ∧ OnTrack s absent held r.key (.node n)
  | .found n => held r.key (s.value n)
  | .notFound => absent

variable {s s' : State} {lists lists' : UInt32 → List Nat} {pos pos' : Nat → Nat} {A A' : Prop}
  {H H' : Int32 → Int32 → Prop}

theorem Heap.absent_of_bucket (h : Heap s lists pos)
    (hnone : ∀ n ∈ lists (s.idx key), s.key n ≠ key) : Absent s key := by
  intro b n hn hkey
  exact h.not_holds hnone (s.value n) ⟨b, n, (h.onPath_head b).mp hn, hkey, rfl⟩

theorem Heap.present_of_mem (h : Heap s lists pos) (hn : n ∈ lists b) :
    Present s (s.key n) (s.value n) :=
  ⟨b, n, (h.onPath_head b).mpr hn, rfl, rfl⟩

/-- The reader's own step, in a state whose contents count as seen. -/
theorem Track.getStep (h : Inv s lists pos) (hok : ReaderOk s lists pos i r)
    (habsent : Absent s r.key → A) (hheld : ∀ key value, Present s key value → H key value)
    (ht : Track s A H r) (hs : getStep s r = some r') : Track s A H r' := by
  obtain ⟨key, pc⟩ := r
  cases pc with
  | start =>
      rw [getStep_start] at hs
      cases hs
      constructor
      · by_cases hnone : ∀ n ∈ lists (s.idx key), s.key n ≠ key
        · exact .inl (habsent (h.heap.absent_of_bucket hnone))
        · simp only [ne_eq, not_forall, not_not] at hnone
          obtain ⟨n, hn, hkey⟩ := hnone
          exact .inr ⟨n, (h.heap.onPath_head _).mpr hn, hkey⟩
      · intro n hn
        exact hheld _ _ (h.heap.present_of_mem ((h.heap.onPath_head _).mp hn))
  | test p =>
      cases p with
      | head b =>
          rw [getStep_head] at hs
          split at hs
          · cases hs
            cases OnTrack.ahead ht with
            | inl ha => exact ha
            | inr hn => obtain ⟨n, hn, _⟩ := hn; cases hn
          · cases hs
      | node n =>
          have hfreed := h.account.not_freed (Trail.guarded hok n .here)
          rw [getStep_node, readKey_of_not_freed hfreed, Option.map_some, Option.some.injEq] at hs
          subst hs
          split
          · next hkey => exact hkey ▸ OnTrack.held ht n .here
          · next hkey => exact ⟨hkey, ht⟩
  | advance n =>
      have hfreed := h.account.not_freed (Trail.guarded hok n .here)
      rw [getStep_advance, readNext_of_not_freed hfreed, Option.map_some, Option.some.injEq] at hs
      subst hs
      obtain ⟨hne, hahead, hhold⟩ := ht
      refine ⟨?_, fun x hx => hhold x (.there hx)⟩
      rcases hahead with ha | ⟨x, hx, hkey⟩
      · exact .inl ha
      · cases hx with
        | here => exact absurd hkey hne
        | there hx => exact .inr ⟨x, hx, hkey⟩
  | found n => cases hs
  | notFound => cases hs

/-- What a reader has ahead of it after a step of a writer was held before the step, or
is held now. -/
theorem OnTrack.evolve (he : Evolves s lists s' lists') (h' : Heap s' lists' pos')
    (h : Heap s lists pos) (hA : A → A') (hH : ∀ key value, H key value → H' key value)
    (habsent : Absent s' key → A') (hheld : ∀ key value, Present s' key value → H' key value)
    (hp : Allocated s p) (ht : OnTrack s A H key p) : OnTrack s' A' H' key p where
  ahead := by
    rcases ht.ahead with ha | ⟨n, hn, hkey⟩
    · exact .inl (hA ha)
    · rcases he.keeps p n hp hn with ⟨n', hn', hkey'⟩ | hgone
      · exact .inr ⟨n', hn', hkey'.trans hkey⟩
      · refine .inl (habsent fun b n' hn' => ?_)
        rw [← hkey]
        exact hgone b n' ((h'.onPath_head b).mp hn')
  held := by
    intro n hn
    rcases he.path p n hp hn with hold | ⟨b, hb⟩
    · have hlt := h.onPath_within hp hold
      rw [he.key n hlt, he.value n hlt]
      exact hH _ _ (ht.held n hold)
    · exact hheld _ _ (h'.present_of_mem hb)

/-- A step of anybody else, into a state whose contents count as seen. -/
theorem Track.evolve (he : Evolves s lists s' lists') (h' : Heap s' lists' pos')
    (h : Heap s lists pos) (hA : A → A') (hH : ∀ key value, H key value → H' key value)
    (habsent : Absent s' r.key → A') (hheld : ∀ key value, Present s' key value → H' key value)
    (hok : ReaderOk s lists pos i r) (ht : Track s A H r) : Track s' A' H' r := by
  obtain ⟨key, pc⟩ := r
  cases pc with
  | start => trivial
  | test p => exact OnTrack.evolve he h' h hA hH habsent hheld (Trail.within hok).allocated ht
  | advance n =>
      have halloc := (Trail.within hok).allocated
      refine ⟨?_, OnTrack.evolve he h' h hA hH habsent hheld halloc ht.2⟩
      rw [he.key n (halloc n rfl)]
      exact ht.1
  | found n =>
      have hheld' : H key (s.value n) := ht
      show H' key (s'.value n)
      rw [he.value n hok.1]
      exact hH _ _ hheld'
  | notFound => exact hA ht

/-! ## a reader gets to its end -/

/-- How many steps a reader has left at most, by the position of its node. -/
def rank (s : State) (pos : Nat → Nat) : Pc → Nat
  | .start => 2 * s.nextId + 2
  | .test (.head _) => 1
  | .test (.node n) => 2 * pos n + 3
  | .advance n => 2 * pos n + 2
  | .found _ => 0
  | .notFound => 0

/-- A reader that has not returned can make a step. -/
theorem ReaderOk.exists_getStep (h : Inv s lists pos) (hok : ReaderOk s lists pos i r)
    (hdone : r.pc.done = false) : ∃ r', Rcu.getStep s r = some r' := by
  obtain ⟨key, pc⟩ := r
  cases pc with
  | start => exact ⟨_, rfl⟩
  | test p =>
      cases p with
      | head b => exact ⟨_, by rw [getStep_head, if_pos ((Trail.within hok).head b rfl)]⟩
      | node n =>
          have hfreed := h.account.not_freed (Trail.guarded hok n .here)
          exact ⟨_, by rw [getStep_node, readKey_of_not_freed hfreed, Option.map_some]⟩
  | advance n =>
      have hfreed := h.account.not_freed (Trail.guarded hok n .here)
      exact ⟨_, by rw [getStep_advance, readNext_of_not_freed hfreed, Option.map_some]⟩
  | found n => cases hdone
  | notFound => cases hdone

/-- A pointer below a position leaves fewer steps than the position says. -/
theorem Within.rank_le (h : Within s pos b bound p) : rank s pos (.test p) ≤ 2 * bound + 1 := by
  cases p with
  | head c => exact Nat.le_add_left 1 _
  | node x =>
      obtain ⟨_, _, hlt⟩ := h.node x rfl
      show 2 * pos x + 3 ≤ 2 * bound + 1
      omega

/-- With each of its own steps a reader has fewer left. -/
theorem rank_getStep (h : Inv s lists pos) (hok : ReaderOk s lists pos i r)
    (hs : getStep s r = some r') : r'.pc ≠ .start ∧ rank s pos r'.pc < rank s pos r.pc := by
  obtain ⟨key, pc⟩ := r
  cases pc with
  | start =>
      rw [getStep_start] at hs
      cases hs
      exact ⟨by simp, Nat.lt_succ_of_le (h.heap.within_head (s.idx key)).rank_le⟩
  | test p =>
      cases p with
      | head b =>
          rw [getStep_head] at hs
          split at hs
          · cases hs
            exact ⟨by simp, Nat.zero_lt_one⟩
          · cases hs
      | node n =>
          rw [getStep_node, Option.map_eq_some_iff] at hs
          obtain ⟨k, _, rfl⟩ := hs
          split
          · exact ⟨by simp, Nat.succ_pos _⟩
          · exact ⟨by simp, Nat.lt_succ_self _⟩
  | advance n =>
      have hfreed := h.account.not_freed (Trail.guarded hok n .here)
      rw [getStep_advance, readNext_of_not_freed hfreed, Option.map_some, Option.some.injEq] at hs
      subst hs
      have hwithin := h.heap.within n ((Trail.within hok).node n rfl).1
      exact ⟨by simp, Nat.lt_succ_of_le hwithin.rank_le⟩
  | found n => cases hs
  | notFound => cases hs

/-- Positions of allocated nodes stay. -/
theorem Outcome.pos_eq (ho : Outcome s lists pos a s' lists' pos') (hn : n < s.nextId) :
    pos' n = pos n := by
  cases ho with
  | add | replace => exact update_nextId_of_lt hn _
  | _ => rfl

/-- A step of another thread does not change how many a reader has left. -/
theorem Outcome.rank_eq (ho : Outcome s lists pos a s' lists' pos') (hok : ReaderOk s lists pos i r)
    (hr : r.pc ≠ .start) : rank s' pos' r.pc = rank s pos r.pc := by
  obtain ⟨key, pc⟩ := r
  cases pc with
  | start => exact absurd rfl hr
  | test p =>
      cases p with
      | head b => rfl
      | node n => rw [rank, rank, ho.pos_eq ((Trail.within hok).node n rfl).1]
  | advance n => rw [rank, rank, ho.pos_eq ((Trail.within hok).node n rfl).1]
  | found n => rfl
  | notFound => rfl

/-! ## a whole traversal -/

/-- A section that was there before a step is as it was, or made its own step. -/
theorem Outcome.section_cases (ho : Outcome s lists pos a s' lists' pos') (hi : i < s.nextSection)
    (hr : s'.sections i = some r) :
    ∃ r₀, s.sections i = some r₀ ∧ (r = r₀ ∨ Rcu.getStep s r₀ = some r ∧ a = .readStep i) := by
  cases ho with
  | noAlloc | add | replace | absent | del | callRcu | callback => exact ⟨r, hr, .inl rfl⟩
  | readLock key =>
      simp only [Function.update_of_ne (Nat.ne_of_lt hi)] at hr
      exact ⟨r, hr, .inl rfl⟩
  | readStep j r₀ r' hr₀ hstep =>
      by_cases hij : i = j
      · subst hij
        simp only [Function.update_self, Option.some.injEq] at hr
        exact ⟨r₀, hr₀, .inr ⟨hr ▸ hstep, rfl⟩⟩
      · simp only [Function.update_of_ne hij] at hr
        exact ⟨r, hr, .inl rfl⟩
  | readUnlock j r₀ hr₀ hdone =>
      by_cases hij : i = j
      · subst hij
        simp at hr
      · simp only [Function.update_of_ne hij] at hr
        exact ⟨r, hr, .inl rfl⟩

theorem Outcome.nextSection_le (ho : Outcome s lists pos a s' lists' pos') :
    s.nextSection ≤ s'.nextSection := by
  cases ho with
  | readLock key => exact Nat.le_succ _
  | _ => exact Nat.le_refl _

theorem getStep_key (hs : getStep s r = some r') : r'.key = r.key := by
  obtain ⟨key, pc⟩ := r
  cases pc with
  | start => cases hs; rfl
  | test p =>
      cases p with
      | head b =>
          rw [getStep_head] at hs
          split at hs
          · cases hs; rfl
          · cases hs
      | node n =>
          rw [getStep_node, Option.map_eq_some_iff] at hs
          obtain ⟨k, _, rfl⟩ := hs
          split <;> rfl
  | advance n =>
      rw [getStep_advance, Option.map_eq_some_iff] at hs
      obtain ⟨p, _, rfl⟩ := hs
      rfl
  | found n => cases hs
  | notFound => cases hs

/-- **A traversal ends**: after its first step a reader makes no more steps than
its rank allows, whatever the others do. -/
theorem count_readStep_le (h : Inv s lists pos) (hi : i < s.nextSection)
    (hrank : ∀ r, s.sections i = some r → r.pc ≠ .start ∧ rank s pos r.pc ≤ k) {acts : List Act}
    (hrun : (rcuMap bcount).run s acts = some s') : acts.count (.readStep i) ≤ k := by
  induction acts generalizing s lists pos k with
  | nil => exact Nat.zero_le k
  | cons a acts ih =>
      rw [System.run_cons, Option.bind_eq_some_iff] at hrun
      obtain ⟨s₁, hs₁, hrest⟩ := hrun
      obtain ⟨lists₁, pos₁, ho, h₁⟩ := h.of_step hs₁
      have hi₁ := Nat.lt_of_lt_of_le hi ho.nextSection_le
      by_cases ha : a = .readStep i
      · subst ha
        rw [List.count_cons_self]
        cases ho with
        | readStep _ r r' hr hstep =>
            obtain ⟨hns, hlt⟩ := rank_getStep h (h.readers i r hr) hstep
            have hle := (hrank r hr).2
            have hrest' : acts.count (.readStep i) ≤ k - 1 := by
              refine ih h₁ hi₁ ?_ hrest
              intro r₁ hr₁
              simp only [Function.update_self, Option.some.injEq] at hr₁
              subst hr₁
              refine ⟨hns, ?_⟩
              show rank s pos r'.pc ≤ k - 1
              omega
            omega
      · rw [List.count_cons_of_ne ha]
        refine ih h₁ hi₁ ?_ hrest
        intro r hr
        obtain ⟨r₀, hr₀, hcase⟩ := ho.section_cases hi hr
        obtain rfl : r = r₀ := hcase.resolve_right fun hstep => ha hstep.2
        obtain ⟨hns, hle⟩ := hrank r hr₀
        exact ⟨hns, ho.rank_eq (h.readers i r hr₀) hns ▸ hle⟩

/-- The key was absent in some state of the run. -/
def WasAbsent (bcount : UInt32) (s : State) (acts : List Act) (key : Int32) : Prop :=
  ∃ t, (rcuMap bcount).Visits s acts t ∧ Absent t key

/-- The key held the value in some state of the run. -/
def WasPresent (bcount : UInt32) (s : State) (acts : List Act) (key value : Int32) : Prop :=
  ∃ t, (rcuMap bcount).Visits s acts t ∧ Present t key value

/-- The run from the start of a traversal, by induction from its end. -/
theorem track_of_run (hinv : Inv s₁ lists₁ pos₁) (hi : i < s₁.nextSection)
    (hstart : s₁.sections i = some ⟨key, .start⟩) (acts : List Act) :
    ∀ s, (rcuMap bcount).run s₁ acts = some s →
      ∃ lists pos, Inv s lists pos ∧ i < s.nextSection ∧ ∀ r, s.sections i = some r →
        r.key = key ∧ Track s (WasAbsent bcount s₁ acts key) (WasPresent bcount s₁ acts) r := by
  induction acts using List.reverseRecOn with
  | nil =>
      intro s hrun
      obtain rfl : s₁ = s := Option.some.inj hrun
      refine ⟨lists₁, pos₁, hinv, hi, fun r hr => ?_⟩
      rw [hstart] at hr
      cases hr
      exact ⟨rfl, trivial⟩
  | append_singleton acts a ih =>
      intro s' hrun'
      have hlast := hrun'
      rw [System.run_append, Option.bind_eq_some_iff] at hlast
      obtain ⟨s, hrun, hlast⟩ := hlast
      rw [System.run_cons, Option.bind_eq_some_iff] at hlast
      obtain ⟨s'', hs, hnil⟩ := hlast
      obtain rfl : s'' = s' := Option.some.inj hnil
      obtain ⟨lists, pos, h, hlt, htrack⟩ := ih s hrun
      obtain ⟨lists', pos', ho, h'⟩ := h.of_step hs
      refine ⟨lists', pos', h', Nat.lt_of_lt_of_le hlt ho.nextSection_le, fun r hr => ?_⟩
      obtain ⟨r₀, hr₀, hcase⟩ := ho.section_cases hlt hr
      obtain ⟨hkey₀, ht₀⟩ := htrack r₀ hr₀
      have hok₀ := h.readers i r₀ hr₀
      -- the state before the step has been seen
      have hseen : r.key = key ∧ ReaderOk s lists pos i r ∧
          Track s (WasAbsent bcount s₁ acts key) (WasPresent bcount s₁ acts) r := by
        rcases hcase with rfl | ⟨hstep, _⟩
        · exact ⟨hkey₀, hok₀, ht₀⟩
        · refine ⟨(getStep_key hstep).trans hkey₀, hok₀.getStep h hstep,
            ht₀.getStep h hok₀ ?_ ?_ hstep⟩
          · intro ha
            exact ⟨s, System.visits_of_run hrun, hkey₀ ▸ ha⟩
          · intro k v hp
            exact ⟨s, System.visits_of_run hrun, hp⟩
      obtain ⟨hkey, hok, ht⟩ := hseen
      refine ⟨hkey, ht.evolve (ho.evolves h.heap) h'.heap h.heap ?_ ?_ ?_ ?_ hok⟩
      · rintro ⟨t, ht, ha⟩
        exact ⟨t, ht.append _, ha⟩
      · rintro k v ⟨t, ht, hp⟩
        exact ⟨t, ht.append _, hp⟩
      · intro ha
        exact ⟨s'', System.visits_of_run hrun', hkey ▸ ha⟩
      · intro k v hp
        exact ⟨s'', System.visits_of_run hrun', hp⟩

end Linuxyz.Rcu
