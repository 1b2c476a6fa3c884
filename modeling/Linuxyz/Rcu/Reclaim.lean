import Linuxyz.Rcu.Reader
import Mathlib.Algebra.Order.BigOperators.Group.Finset

/-!
# Linuxyz.Rcu.Reclaim

Every node that leaves the map is freed, once, and not too early.

`Account` already says that an unlinked node is at every moment in exactly one
of the stages pending, waiting and freed.  Here is the rest: no stage is a dead
end.  `work` measures what open sections, writers and callbacks have left to
do; as long as a node is not freed yet, somebody can bring it down
(`Inv.exists_step`), so the system can always run to a state in which every
unlinked node has been freed.
-/

namespace Linuxyz.Rcu

open ListHead

variable {s s' : State} {lists : UInt32 → List Nat} {pos : Nat → Nat}

/-! ## what is left to do -/

/-- What an open section still has to do, its unlock included. -/
def sectionWork (s : State) (pos : Nat → Nat) (i : Nat) : Nat :=
  match s.sections i with
  | none => 0
  | some r => rank s pos r.pc + 1

/-- What readers, writers and callbacks still have to do if no new call comes. -/
def work (s : State) (pos : Nat → Nat) : Nat :=
  2 * s.pending.length + s.callbacks.length + ∑ i ∈ Finset.range s.nextSection, sectionWork s pos i

/-- Less work in one section is less work. -/
theorem work_sections_lt (h : Inv s lists pos) (hr : s.sections i = some r) (o : Option Section)
    (hlt : (match o with | none => 0 | some r' => rank s pos r'.pc + 1) < rank s pos r.pc + 1) :
    work { s with sections := Function.update s.sections i o } pos < work s pos := by
  have hone : sectionWork { s with sections := Function.update s.sections i o } pos i <
      sectionWork s pos i := by
    simp only [sectionWork, Function.update_self, hr]
    exact hlt
  refine Nat.add_lt_add_left (Finset.sum_lt_sum ?_ ⟨i,
    Finset.mem_range.mpr (h.sections i r hr), hone⟩) _
  intro j _
  by_cases hj : j = i
  · rw [hj]
    exact Nat.le_of_lt hone
  · apply Nat.le_of_eq
    simp only [sectionWork, Function.update_of_ne hj]
    rfl

theorem step_readStep (hr : s.sections i = some r) (hstep : getStep s r = some r') :
    step s (.readStep i) = some { s with sections := Function.update s.sections i (some r') } := by
  simp only [step, hr, Option.bind_some, hstep, Option.map_some]

/-- An open section can make a step or be unlocked. -/
theorem Inv.section_step (h : Inv s lists pos) (hr : s.sections i = some r) :
    ∃ a s', step s a = some s' ∧ Inv s' lists pos ∧ s'.nextId = s.nextId ∧
      work s' pos < work s pos := by
  cases hdone : r.pc.done with
  | true =>
      have ho : Outcome s lists pos _ _ lists pos := .readUnlock i r hr hdone
      refine ⟨.readUnlock i, _, ?_, ho.inv h, rfl, work_sections_lt h hr none (Nat.succ_pos _)⟩
      simp only [step, hr, Option.bind_some, hdone, if_true]
  | false =>
      obtain ⟨r', hstep⟩ := (h.readers i r hr).exists_getStep h hdone
      have ho : Outcome s lists pos _ _ lists pos := .readStep i r r' hr hstep
      have hlt := (rank_getStep h (h.readers i r hr) hstep).2
      exact ⟨.readStep i, _, step_readStep hr hstep, ho.inv h, rfl,
        work_sections_lt h hr (some r') (Nat.succ_lt_succ hlt)⟩

/-- **Nothing is stuck**: while a node waits to be freed, somebody can make a
step that is not a new call and leaves less work. -/
theorem Inv.exists_step (h : Inv s lists pos) (hleft : s.pending ≠ [] ∨ s.callbacks ≠ []) :
    ∃ a s', step s a = some s' ∧ Inv s' lists pos ∧ s'.nextId = s.nextId ∧
      work s' pos < work s pos := by
  by_cases hp : s.pending = []
  · by_cases hopen : ∃ i r, s.sections i = some r
    · obtain ⟨i, r, hr⟩ := hopen
      exact h.section_step hr
    · -- no section is open, so every callback can run
      have hclosed : ∀ i, s.sections i = none := fun i =>
        Option.eq_none_iff_forall_ne_some.mpr fun r hr => hopen ⟨i, r, hr⟩
      obtain ⟨⟨n, waits⟩, rest, hc⟩ :=
        List.exists_cons_of_ne_nil (hleft.resolve_left (not_not.mpr hp))
      have hi : s.callbacks[0]? = some (n, waits) := by rw [hc]; rfl
      have ho : Outcome s lists pos _ _ lists pos := .callback 0 n waits hi fun j _ => hclosed j
      refine ⟨.callback 0, _, ?_, ho.inv h, rfl, ?_⟩
      · rw [step, ccmapCb, hi, Option.bind_some]
        exact if_pos (List.all_eq_true.mpr fun j _ => by rw [hclosed j]; rfl)
      · refine Nat.add_lt_add_right (Nat.add_lt_add_left ?_ _) _
        simp [hc]
  · obtain ⟨n, rest, hcons⟩ := List.exists_cons_of_ne_nil hp
    have hn : n ∈ s.pending := by rw [hcons]; simp
    have ho : Outcome s lists pos _ _ lists pos := .callRcu n hn
    refine ⟨.callRcu n, _, if_pos hn, ho.inv h, rfl, ?_⟩
    have hlen := List.length_erase_of_mem hn
    have hpos : 0 < s.pending.length := List.length_pos_of_mem hn
    refine Nat.add_lt_add_right ?_ _
    simp only [List.length_append, List.length_singleton, hlen]
    omega

/-- From every state of a run there is a way to the point where nothing waits
to be freed, on which the map itself does not change. -/
theorem Inv.exists_drained (h : Inv s lists pos) (bcount : UInt32) :
    ∃ acts s', (rcuMap bcount).run s acts = some s' ∧ Inv s' lists pos ∧ s'.nextId = s.nextId ∧
      s'.pending = [] ∧ s'.callbacks = [] := by
  induction hw : work s pos using Nat.strong_induction_on generalizing s with
  | _ w ih =>
      by_cases hleft : s.pending ≠ [] ∨ s.callbacks ≠ []
      · obtain ⟨a, s₁, hs₁, h₁, hnext, hlt⟩ := h.exists_step hleft
        obtain ⟨acts, s', hrun, h', hnext', hdone⟩ := ih _ (hw ▸ hlt) h₁ rfl
        refine ⟨a :: acts, s', ?_, h', hnext'.trans hnext, hdone⟩
        rw [System.run_cons, Option.bind_eq_some_iff]
        exact ⟨s₁, hs₁, hrun⟩
      · obtain ⟨hp, hc⟩ := not_or.mp hleft
        exact ⟨[], s, rfl, h, rfl, not_not.mp hp, not_not.mp hc⟩

/-! ## reader safety -/

/-- The node that a reader is about to read. -/
def Pc.node? : Pc → Option Nat
  | .test (.node n) => some n
  | .advance n => some n
  | .found n => some n
  | _ => none

/-- Node `n` is linked in some bucket. -/
def Linked (s : State) (n : Nat) : Prop := ∃ b, LinkedIn s b n

theorem Heap.linked_iff (h : Heap s lists pos) : Linked s n ↔ ∃ b, n ∈ lists b :=
  exists_congr fun b => h.onPath_head b

/-- The node a reader is about to read is kept for it. -/
theorem ReaderOk.guarded (hok : ReaderOk s lists pos i r) (hn : r.pc.node? = some n) :
    Guarded s lists i n := by
  obtain ⟨key, pc⟩ := r
  cases pc with
  | start => cases hn
  | test p =>
      cases p with
      | head b => cases hn
      | node x => cases hn; exact Trail.guarded hok n .here
  | advance x => cases hn; exact Trail.guarded hok n .here
  | found x => cases hn; exact hok.2.2
  | notFound => cases hn

/-- **RCU reader safety**, after every interleaving of readers, updates, removes
and callbacks:

* no reader is about to read a freed node, and one that has not returned can
  go on, for a bounded number of steps whatever the others do;
* a traversal that returns `NULL` saw a state without its key, and one that
  returns a node saw a state in which its key held that node's value;
* a linked node is never freed, an unlinked one is at every moment in exactly
  one of the stages pending, waiting for readers, freed, and the system can
  run on until it has been freed exactly once. -/
theorem rcu_reader_safety (bcount : UInt32) (acts : List Act) (s : State)
    (hrun : (rcuMap bcount).run (makeCcmap bcount) acts = some s) :
    (∀ i r, s.sections i = some r →
        (∀ n, r.pc.node? = some n → n ∉ s.freed) ∧
        (r.pc.done = false → ∃ s', step s (.readStep i) = some s')) ∧
      (∀ i key s₁ acts' s', s.sections i = some ⟨key, .start⟩ → step s (.readStep i) = some s₁ →
        (rcuMap bcount).run s₁ acts' = some s' → acts'.count (.readStep i) ≤ 2 * s.nextId + 1) ∧
      (∀ key s₁ acts' s' r, step s (.readLock key) = some s₁ →
        (rcuMap bcount).run s₁ acts' = some s' → s'.sections s.nextSection = some r →
        (r.pc = .notFound → WasAbsent bcount s₁ acts' key) ∧
        ∀ n, r.pc = .found n → s'.key n = key ∧ WasPresent bcount s₁ acts' key (s'.value n)) ∧
      (∀ n, n < s.nextId → (Linked s n → copies s n = 0) ∧ (¬ Linked s n → copies s n = 1)) ∧
      ∃ acts' s', (rcuMap bcount).run s acts' = some s' ∧
        ∀ n, n < s.nextId → ¬ Linked s n → s'.freed.count n = 1 := by
  obtain ⟨lists, pos, h⟩ := inv_of_reachable (System.reachable_of_run (.init rfl) hrun)
  refine ⟨?_, ?_, ?_, ?_, ?_⟩
  · intro i r hr
    have hok := h.readers i r hr
    refine ⟨fun n hn => h.account.not_freed (hok.guarded hn), fun hdone => ?_⟩
    obtain ⟨r', hstep⟩ := hok.exists_getStep h hdone
    exact ⟨_, step_readStep hr hstep⟩
  · intro i key s₁ acts' s' hr hs₁ hrun'
    have hstep := getStep_start s key
    have ho : Outcome s lists pos _ _ lists pos := .readStep i _ _ hr hstep
    rw [step_readStep hr hstep] at hs₁
    obtain rfl := Option.some.inj hs₁
    refine count_readStep_le (ho.inv h) (h.sections i _ hr) ?_ hrun'
    intro r hr'
    simp only [Function.update_self, Option.some.injEq] at hr'
    subst hr'
    exact ⟨by simp, (h.heap.within_head (s.idx key)).rank_le⟩
  · intro key s₁ acts' s' r hs₁ hrun' hr
    have ho : Outcome s lists pos _ _ lists pos := .readLock key
    obtain rfl := Option.some.inj hs₁
    obtain ⟨lists', pos', h', _, htrack⟩ := track_of_run (ho.inv h) (Nat.lt_succ_self s.nextSection)
      (Function.update_self ..) acts' s' hrun'
    obtain ⟨hkey, ht⟩ := htrack r hr
    have hok := h'.readers _ r hr
    obtain ⟨key', pc⟩ := r
    constructor
    · rintro rfl
      exact ht
    · rintro n rfl
      exact ⟨hok.2.1.trans hkey, hkey ▸ ht⟩
  · intro n hn
    rw [h.heap.linked_iff]
    constructor
    · rintro ⟨b, hb⟩
      exact h.account.linked b n hb
    · intro hout
      exact h.account.unlinked n hn fun b hb => hout ⟨b, hb⟩
  · obtain ⟨acts', s', hrun', h', hnext, hp, hc⟩ := h.exists_drained bcount
    refine ⟨acts', s', hrun', fun n hn hout => ?_⟩
    rw [h.heap.linked_iff] at hout
    have hone := h'.account.unlinked n (hnext ▸ hn) fun b hb => hout ⟨b, hb⟩
    rw [copies, hp, hc] at hone
    simpa using hone

/-- A reader that stands on a node already replaced and passed to `call_rcu`. -/
theorem rcu_reader_safety_replaced :
    ∃ s, (rcuMap 1).run (makeCcmap 1)
        [.update 1 5 true, .readLock 1, .readStep 0, .update 1 7 true, .callRcu 0] = some s ∧
      s.sections 0 = some ⟨1, .test (.node 0)⟩ ∧ 0 ∉ s.freed := by
  obtain ⟨s, hs⟩ : ∃ s, (rcuMap 1).run (makeCcmap 1)
      [.update 1 5 true, .readLock 1, .readStep 0, .update 1 7 true, .callRcu 0] = some s :=
        ⟨_, rfl⟩
  have hsection : s.sections 0 = some ⟨1, .test (.node 0)⟩ := by
    cases hs
    rfl
  exact ⟨s, hs, hsection, ((rcu_reader_safety 1 _ s hs).1 0 _ hsection).1 0 rfl⟩

end Linuxyz.Rcu
