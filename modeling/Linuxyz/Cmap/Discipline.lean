import Linuxyz.Cmap.LastWrite
import Linuxyz.Cmap.Threads

/-!
# Linuxyz.Cmap.Discipline

Any number of threads that call `cmap_set`, `cmap_get` and `cmap_del` on one
map, and which mutex each of them holds.

A call locks the mutex of its bucket, does its work, and unlocks the mutex of
`buck[idx]`.  The variable `idx` is also the return value, so a search that
misses sets it to -1 before the unlock.  The work between lock and unlock is
one step: no call touches an entry of a bucket whose mutex it does not hold.

`Present` is the condition under which a call unlocks what it locked, and
`Held` says who holds which mutex when every call meets it.
-/

namespace Linuxyz.Cmap

open Function (update update_self update_of_ne)

/-! ## the threads -/

/-- Where a thread is in the call it makes. -/
inductive Stage where
  | idle
  | locked
  | leave (idx : Int)

/-- The map, the owners of its mutexes, and for each thread the calls it has
still to finish and where it is in the first of them. -/
structure Callers (n : Nat) where
  map : BogusCmap
  owner : Nat → Option (Fin n)
  todo : Fin n → List Call
  stage : Fin n → Stage

variable {n : Nat} {s s' : Callers n} {t u : Fin n} {c : Call} {rest : List Call}

/-- `pthread_mutex_unlock(&cm->buck[idx].lock)`; index -1 reaches no mutex of the map.
What else the write in front of the array does is left open (`Stray`): `Present` rules
it out. -/
def unlockOwner (owner : Nat → Option (Fin n)) : Int → Nat → Option (Fin n)
  | .ofNat i => update owner i none
  | .negSucc _ => owner

/-- Thread `t` locks the mutex of bucket `i`. -/
def Callers.lock (s : Callers n) (t : Fin n) (i : Nat) : Callers n :=
  { s with owner := update s.owner i (some t), stage := update s.stage t .locked }

/-- Thread `t` has done its work, with `idx` in the variable of that name. -/
def Callers.work (s : Callers n) (t : Fin n) (m : BogusCmap) (idx : Int) : Callers n :=
  { s with map := m, stage := update s.stage t (.leave idx) }

/-- Thread `t` unlocks `buck[idx]` and returns, with `rest` left to do. -/
def Callers.finish (s : Callers n) (t : Fin n) (idx : Int) (rest : List Call) : Callers n :=
  { s with
    owner := unlockOwner s.owner idx
    todo := update s.todo t rest
    stage := update s.stage t .idle }

/-- The next step of thread `t`; `none` when it has nothing to do, waits for a
mutex or faults. -/
def callStep (s : Callers n) (t : Fin n) : Option (Callers n) :=
  match s.todo t with
  | [] => none
  | c :: rest =>
      match s.stage t with
      | .idle =>
          if s.owner (s.map.idx c.key) = none then some (s.lock t (s.map.idx c.key)) else none
      | .locked => (call s.map c).map fun (m, r) => s.work t m r.ret
      | .leave idx => some (s.finish t idx rest)

/-- Threads on a map of lists, none of them in a call and no mutex locked. -/
structure Callers.Start (s : Callers n) : Prop where
  wf : ∃ nodes, Wf s.map nodes
  idle : ∀ t, s.stage t = .idle
  free : ∀ b, s.owner b = none

/-- What one step of a thread does. -/
inductive CallMove (s : Callers n) (t : Fin n) (c : Call) (rest : List Call) :
    Callers n → Prop where
  | lock : s.stage t = .idle → s.owner (s.map.idx c.key) = none →
      CallMove s t c rest (s.lock t (s.map.idx c.key))
  | work : s.stage t = .locked → call s.map c = some (m, r) → CallMove s t c rest (s.work t m r.ret)
  | leave : s.stage t = .leave idx → CallMove s t c rest (s.finish t idx rest)

/-- A thread steps in the call in front of its list, by one of the moves of a call. -/
theorem callStep_cases (h : callStep s t = some s') :
    ∃ c rest, s.todo t = c :: rest ∧ CallMove s t c rest s' := by
  unfold callStep at h
  cases htodo : s.todo t with
  | nil => rw [htodo] at h; cases h
  | cons c rest =>
      refine ⟨c, rest, rfl, ?_⟩
      rw [htodo] at h
      cases hstage : s.stage t with
      | idle =>
          simp only [hstage] at h
          split at h
          · cases h
            exact .lock hstage ‹_›
          · cases h
      | locked =>
          simp only [hstage, Option.map_eq_some_iff] at h
          obtain ⟨⟨m, r⟩, hcall, rfl⟩ := h
          exact .work hstage hcall
      | leave idx =>
          simp only [hstage] at h
          cases h
          exact .leave hstage

/-! ## which index a call unlocks -/

/-- The call is a `cmap_set`, or its key is in use. -/
def Present (m : BogusCmap) (c : Call) : Prop :=
  (∃ key value, c = .set key value) ∨ ∃ v, (c.key, v) ∈ live m (m.idx c.key)

/-- A call leaves the index of its bucket in `idx` exactly when it is present;
otherwise it leaves -1. -/
theorem Outcome.ret_eq (ho : Outcome m nodes c m' r) (h : Wf m nodes) :
    (Present m c ∧ r.ret = m.idx c.key) ∨ (¬ Present m c ∧ r.ret = -1) := by
  have hhit {key l₁ a l₂ e} (hf : First m nodes key l₁ a l₂ e) :
      ∃ v, (key, v) ∈ live m (m.idx key) :=
    ⟨e.value, by rw [hf.live_eq h]; simp⟩
  cases ho with
  | fill _ _ _ | grow _ => exact .inl ⟨.inl ⟨_, _, rfl⟩, rfl⟩
  | visit hf | look hf | clear hf => exact .inl ⟨.inr (hhit hf), rfl⟩
  | getMiss hnone | delMiss hnone =>
      refine .inr ⟨?_, rfl⟩
      rintro (⟨key, value, hset⟩ | ⟨v, hv⟩)
      · cases hset
      · exact hnone v hv

/-! ## who holds which mutex -/

/-- Thread `t` is in a call on bucket `b`. -/
def Callers.In (s : Callers n) (t : Fin n) (b : Nat) : Prop :=
  s.stage t ≠ .idle ∧ ∃ c rest, s.todo t = c :: rest ∧ s.map.idx c.key = b

/-- Each mutex is held by the thread that is in a call on its bucket, and a
thread that is about to unlock has the index of its bucket in `idx`. -/
structure Held (s : Callers n) : Prop where
  wf : ∃ nodes, Wf s.map nodes
  keeps : ∀ t, ∀ c ∈ s.todo t, c.Keeps
  own : ∀ b t, s.owner b = some t ↔ s.In t b
  leaves : ∀ t c rest idx, s.todo t = c :: rest → s.stage t = .leave idx → idx = s.map.idx c.key

theorem Callers.In.unique (h : s.In t b) (htodo : s.todo t = c :: rest) : b = s.map.idx c.key := by
  obtain ⟨-, c', rest', htodo', hidx⟩ := h
  rw [htodo] at htodo'
  cases htodo'
  exact hidx.symm

/-- A step of `t` that keeps the buckets and the calls of the others does not
change which calls they are in. -/
theorem Callers.in_congr (htodo : s'.todo u = s.todo u) (hstage : s'.stage u = s.stage u)
    (hidx : s'.map.idx = s.map.idx) : s'.In u b ↔ s.In u b := by
  rw [Callers.In, Callers.In, htodo, hstage, hidx]

/-- At the start no mutex is held. -/
theorem Held.start (h : s.Start) (hkeeps : ∀ t, ∀ c ∈ s.todo t, c.Keeps) : Held s where
  wf := h.wf
  keeps := hkeeps
  own := by
    intro b t
    rw [h.free b]
    exact ⟨fun hown => (Option.some_ne_none t hown.symm).elim, fun hin => absurd (h.idle t) hin.1⟩
  leaves := by
    intro t c rest idx _ hstage
    rw [h.idle t] at hstage
    cases hstage

/-- A thread that finds the mutex of its bucket free takes it. -/
theorem Held.lock (h : Held s) (htodo : s.todo t = c :: rest) (hstage : s.stage t = .idle)
    (hfree : s.owner (s.map.idx c.key) = none) : Held (s.lock t (s.map.idx c.key)) where
  wf := h.wf
  keeps := h.keeps
  own := by
    intro b u
    by_cases hut : u = t
    · subst hut
      have hin : (s.lock u (s.map.idx c.key)).In u b ↔ s.map.idx c.key = b := by
        simp [Callers.In, Callers.lock, htodo]
      have hold : s.owner b ≠ some u := fun hown => ((h.own b u).mp hown).1 hstage
      rw [hin]
      by_cases hb : b = s.map.idx c.key
      · simp [Callers.lock, hb]
      · simp [Callers.lock, hb, Ne.symm hb, hold]
    · have hin : (s.lock t (s.map.idx c.key)).In u b ↔ s.In u b :=
        Callers.in_congr rfl (update_of_ne hut ..) rfl
      rw [hin, ← h.own b u]
      by_cases hb : b = s.map.idx c.key
      · simp [Callers.lock, hb, hfree, Ne.symm hut]
      · simp [Callers.lock, hb]
  leaves := by
    intro u c' rest' idx htodo' hstage'
    by_cases hut : u = t
    · subst hut
      simp [Callers.lock] at hstage'
    · exact h.leaves u c' rest' idx htodo' ((update_of_ne hut ..).symm.trans hstage')

/-- The call itself, which finds its key, leaves its index for the unlock. -/
theorem Held.work (h : Held s) (htodo : s.todo t = c :: rest) (hstage : s.stage t = .locked)
    (hcall : call s.map c = some (m, r)) (hpresent : Present s.map c) :
    Held (s.work t m r.ret) := by
  obtain ⟨nodes, hwf⟩ := h.wf
  obtain ⟨m', r', hcall', ho⟩ := hwf.call_cases c
  rw [hcall] at hcall'
  cases hcall'
  have hidx : m.idx = s.map.idx := by
    funext key
    rw [BogusCmap.idx, BogusCmap.idx, ho.buckSize]
  have hret : r.ret = s.map.idx c.key := by
    rcases ho.ret_eq hwf with ⟨-, hret⟩ | ⟨hmiss, -⟩
    · exact hret
    · exact absurd hpresent hmiss
  refine ⟨?_, h.keeps, fun b u => ?_, fun u c' rest' idx htodo' hstage' => ?_⟩
  · rcases ho.wf hwf (h.keeps t c (by rw [htodo]; simp)) with hwf' | ⟨_, _, _, _, hwf'⟩
    · exact ⟨_, hwf'⟩
    · exact ⟨_, hwf'⟩
  · have hin : (s.work t m r.ret).In u b ↔ s.In u b := by
      by_cases hut : u = t
      · subst hut
        simp [Callers.In, Callers.work, hidx, hstage]
      · exact Callers.in_congr rfl (update_of_ne hut ..) hidx
    exact (h.own b u).trans hin.symm
  · have hidx' : (s.work t m r.ret).map.idx c'.key = s.map.idx c'.key := congrFun hidx c'.key
    rw [hidx']
    by_cases hut : u = t
    · subst hut
      have heq : c :: rest = c' :: rest' := htodo.symm.trans htodo'
      cases heq
      simp only [Callers.work, update_self, Stage.leave.injEq] at hstage'
      rw [← hstage', hret]
    · exact h.leaves u c' rest' idx htodo' ((update_of_ne hut ..).symm.trans hstage')

/-- The unlock releases the mutex that the thread holds, and no other. -/
theorem Held.leave (h : Held s) (htodo : s.todo t = c :: rest) (hstage : s.stage t = .leave idx) :
    Held (s.finish t idx rest) := by
  obtain rfl := h.leaves t c rest idx htodo hstage
  have hmine : s.owner (s.map.idx c.key) = some t :=
    (h.own _ t).mpr ⟨by rw [hstage]; simp, c, rest, htodo, rfl⟩
  refine ⟨h.wf, fun u c' hc' => ?_, fun b u => ?_, fun u c' rest' idx htodo' hstage' => ?_⟩
  · by_cases hut : u = t
    · subst hut
      simp only [Callers.finish, update_self] at hc'
      exact h.keeps u c' (by rw [htodo]; exact List.mem_cons_of_mem _ hc')
    · simp only [Callers.finish, update_of_ne hut] at hc'
      exact h.keeps u c' hc'
  · have howner : (s.finish t (s.map.idx c.key) rest).owner b =
        update s.owner (s.map.idx c.key) none b := rfl
    rw [howner]
    by_cases hut : u = t
    · subst hut
      have hin : ¬ (s.finish u (s.map.idx c.key) rest).In u b :=
        fun hin => hin.1 (update_self ..)
      refine ⟨fun hown => ?_, fun h => absurd h hin⟩
      by_cases hb : b = s.map.idx c.key
      · simp [hb] at hown
      · rw [update_of_ne hb] at hown
        exact absurd (((h.own b u).mp hown).unique htodo) hb
    · have hin : (s.finish t (s.map.idx c.key) rest).In u b ↔ s.In u b :=
        Callers.in_congr (update_of_ne hut ..) (update_of_ne hut ..) rfl
      rw [hin, ← h.own b u]
      by_cases hb : b = s.map.idx c.key
      · simp [hb, hmine, Ne.symm hut]
      · rw [update_of_ne hb]
  · by_cases hut : u = t
    · subst hut
      simp [Callers.finish] at hstage'
    · exact h.leaves u c' rest' idx ((update_of_ne hut ..).symm.trans htodo')
        ((update_of_ne hut ..).symm.trans hstage')

/-- A thread that is to do the work of its call finds the call present. -/
def FindsKey (s : Callers n) (t : Fin n) : Prop :=
  ∀ c rest, s.todo t = c :: rest → s.stage t = .locked → Present s.map c

theorem Held.step (h : Held s) (hfinds : FindsKey s t) (hs : callStep s t = some s') : Held s' := by
  obtain ⟨c, rest, htodo, hmove⟩ := callStep_cases hs
  cases hmove with
  | lock hstage hfree => exact h.lock htodo hstage hfree
  | work hstage hcall => exact h.work htodo hstage hcall (hfinds c rest htodo hstage)
  | leave hstage => exact h.leave htodo hstage

/-! ## what follows for the mutexes -/

/-- A thread that is inside a bucket can go on. -/
theorem Held.enabled (h : Held s) (hin : s.In t b) : (callStep s t).isSome := by
  obtain ⟨hstage, c, rest, htodo, -⟩ := hin
  rw [callStep, htodo]
  cases hst : s.stage t with
  | idle => exact absurd hst hstage
  | locked =>
      obtain ⟨nodes, hwf⟩ := h.wf
      obtain ⟨m, r, hcall, -⟩ := hwf.call_cases c
      simp [hcall]
  | leave idx => rfl

/-- A thread with a call to make can go on, or waits for one that can. -/
theorem Held.waits (h : Held s) (htodo : s.todo t = c :: rest) :
    (callStep s t).isSome ∨ ∃ u, s.owner (s.map.idx c.key) = some u ∧ (callStep s u).isSome := by
  cases howner : s.owner (s.map.idx c.key) with
  | some u => exact .inr ⟨u, rfl, h.enabled ((h.own _ u).mp howner)⟩
  | none =>
      left
      cases hst : s.stage t with
      | idle => simp [callStep, htodo, hst, howner]
      | locked | leave idx => exact h.enabled ⟨by simp [hst], c, rest, htodo, rfl⟩

/-- No mutex is held when every call has returned. -/
theorem Held.free (h : Held s) (hdone : ∀ t, s.todo t = []) (b : Nat) : s.owner b = none := by
  cases howner : s.owner b with
  | none => rfl
  | some t =>
      obtain ⟨-, c, rest, htodo, -⟩ := (h.own b t).mp howner
      rw [hdone t] at htodo
      cases htodo

/-! ## the length of a run -/

def Stage.left : Stage → Nat
  | .idle => 3
  | .locked => 2
  | .leave _ => 1

end Linuxyz.Cmap
