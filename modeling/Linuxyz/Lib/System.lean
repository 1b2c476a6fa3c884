/-!
# Linuxyz.Lib.System

Labelled transition systems with a partial step function: `step s a` is the
state after action `a`, or `none` when `a` is not possible in `s`.

`Reachable` is the set of states some run ends in, and `Reachable.invariant`
the one induction every safety proof goes through: an invariant of the initial
states that every step preserves holds in every reachable state.  `run`
executes a list of actions; `reachable_of_run` connects the two views.
`Visits` names the states that a run passes through, and `Meets` says that
every action of a run meets a condition where it is taken.
-/

namespace Linuxyz

/-- A transition system: its initial states and its labelled steps. -/
structure System (S A : Type) where
  init : S → Prop
  step : S → A → Option S

namespace System

variable {S A : Type} {M : System S A}

/-- The states that some run from an initial state ends in. -/
inductive Reachable (M : System S A) : S → Prop where
  | init {s : S} : M.init s → Reachable M s
  | step {s s' : S} {a : A} : Reachable M s → M.step s a = some s' → Reachable M s'

/-- **Invariant rule**: what holds initially and is preserved by every step
holds in every reachable state. -/
theorem Reachable.invariant {P : S → Prop} (hinit : ∀ s, M.init s → P s)
    (hstep : ∀ s a s', P s → M.step s a = some s' → P s') {s : S} (h : M.Reachable s) : P s := by
  induction h with
  | init h0 => exact hinit _ h0
  | step _ hs ih => exact hstep _ _ _ ih hs

/-- Execute a list of actions. -/
def run (M : System S A) (s : S) : List A → Option S
  | [] => some s
  | a :: as => (M.step s a).bind (M.run · as)

@[simp] theorem run_cons (s : S) (a : A) (as : List A) :
    M.run s (a :: as) = (M.step s a).bind (M.run · as) := rfl

/-- What a run reaches is reachable. -/
theorem reachable_of_run {s s' : S} (h : M.Reachable s) {as : List A}
    (hrun : M.run s as = some s') : M.Reachable s' := by
  induction as generalizing s with
  | nil =>
      have hs : s = s' := Option.some.inj hrun
      exact hs ▸ h
  | cons a as ih =>
      rw [run_cons, Option.bind_eq_some_iff] at hrun
      obtain ⟨s₁, hs₁, hrest⟩ := hrun
      exact ih (h.step hs₁) hrest

/-- A run, cut in two. -/
theorem run_append (s : S) (as bs : List A) :
    M.run s (as ++ bs) = (M.run s as).bind (M.run · bs) := by
  induction as generalizing s with
  | nil => rfl
  | cons a as ih =>
      rw [List.cons_append, run_cons, run_cons]
      cases M.step s a with
      | none => rfl
      | some s' => exact ih s'

/-- Every action of the run of `as` from `s` meets `P` where it is taken. -/
def Meets (M : System S A) (P : S → A → Prop) : S → List A → Prop
  | _, [] => True
  | s, a :: as => P s a ∧ ∀ s', M.step s a = some s' → M.Meets P s' as

theorem meets_of_forall {Q : A → Prop} {as : List A} (s : S) (hQ : ∀ a ∈ as, Q a) :
    M.Meets (fun _ a => Q a) s as := by
  induction as generalizing s with
  | nil => trivial
  | cons a as ih => exact ⟨hQ a (by simp), fun s' _ => ih s' fun b hb => hQ b (by simp [hb])⟩

theorem Meets.both {P Q : S → A → Prop} {s : S} {as : List A} (hP : M.Meets P s as)
    (hQ : M.Meets Q s as) : M.Meets (fun s a => P s a ∧ Q s a) s as := by
  induction as generalizing s with
  | nil => trivial
  | cons a as ih => exact ⟨⟨hP.1, hQ.1⟩, fun s' hs' => ih (hP.2 s' hs') (hQ.2 s' hs')⟩

theorem Meets.and {P : S → A → Prop} {Q : A → Prop} {s : S} {as : List A} (h : M.Meets P s as)
    (hQ : ∀ a ∈ as, Q a) : M.Meets (fun s a => P s a ∧ Q a) s as :=
  h.both (meets_of_forall s hQ)

/-- Actions that keep an invariant meet what the invariant gives. -/
theorem meets_of_invariant {P : S → A → Prop} {Q : A → Prop} {I : S → Prop}
    (hstep : ∀ s a s', I s → Q a → M.step s a = some s' → I s')
    (hP : ∀ s a, I s → Q a → P s a) {s : S} {as : List A} (hs : I s)
    (hQ : ∀ a ∈ as, Q a) : M.Meets P s as := by
  induction as generalizing s with
  | nil => trivial
  | cons a as ih =>
      have ha : Q a := hQ a (by simp)
      exact ⟨hP s a hs ha, fun s' hs' =>
        ih (hstep s a s' hs ha hs') fun b hb => hQ b (by simp [hb])⟩

theorem Meets.cons {P : S → A → Prop} {s s₁ : S} {a : A} {as : List A} (ha : P s a)
    (hs : M.step s a = some s₁) (h : M.Meets P s₁ as) : M.Meets P s (a :: as) := by
  refine ⟨ha, fun s' hs' => ?_⟩
  rw [hs] at hs'
  cases hs'
  exact h

/-- Whether a given run meets a decidable condition. -/
instance decidableMeets (M : System S A) (P : S → A → Prop) [∀ s a, Decidable (P s a)] :
    (s : S) → (as : List A) → Decidable (M.Meets P s as)
  | _, [] => .isTrue trivial
  | s, a :: as =>
      match hs : M.step s a with
      | none =>
          decidable_of_iff (P s a) ⟨fun ha => ⟨ha, fun s' hs' => by rw [hs] at hs'; cases hs'⟩,
            And.left⟩
      | some s₁ =>
          have := decidableMeets M P s₁ as
          decidable_of_iff (P s a ∧
            M.Meets P s₁ as) ⟨fun h => h.2.cons h.1 hs, fun h => ⟨h.1, h.2 s₁ hs⟩⟩

/-- **Refinement rule**: where an action that meets `P` is possible and does to a
concrete state what `f` does to the abstract one, a run whose actions all meet `P`
goes through and does what the actions do to the abstract state. -/
theorem Meets.refines {L : Type} {P : S → A → Prop} {R : S → L → Prop} {f : L → A → L}
    (hstep : ∀ s l a, R s l → P s a → ∃ s', M.step s a = some s' ∧ R s' (f l a)) {s : S} {l : L}
    {as : List A} (h : M.Meets P s as) (hs : R s l) :
    ∃ s', M.run s as = some s' ∧ R s' (as.foldl f l) := by
  induction as generalizing s l with
  | nil => exact ⟨s, rfl, hs⟩
  | cons a as ih =>
      obtain ⟨s₁, hs₁, hR⟩ := hstep s l a hs h.1
      obtain ⟨s', hs', hR'⟩ := ih (h.2 s₁ hs₁) hR
      exact ⟨s', by rw [run_cons, hs₁, Option.bind_some, hs'], hR'⟩

/-- **Progress rule**: where an action that meets `P` is possible and keeps the
invariant, a run whose actions all meet `P` goes through. -/
theorem Meets.run {P : S → A → Prop} {I : S → Prop}
    (hstep : ∀ s a, I s → P s a → ∃ s', M.step s a = some s' ∧ I s') {s : S} {as : List A}
    (h : M.Meets P s as) (hs : I s) : ∃ s', M.run s as = some s' ∧ I s' :=
  h.refines (R := fun s _ => I s) (f := fun _ _ => ()) (l := ())
    (fun s _ a hI ha => hstep s a hI ha) hs

/-- **Invariant rule for the runs that meet `P`**. -/
theorem Meets.invariant {P : S → A → Prop} {I : S → Prop}
    (hstep : ∀ s a s', I s → P s a → M.step s a = some s' → I s') {s s' : S} {as : List A}
    (h : M.Meets P s as) (hs : I s) (hrun : M.run s as = some s') : I s' := by
  induction as generalizing s with
  | nil =>
      cases hrun
      exact hs
  | cons a as ih =>
      rw [run_cons, Option.bind_eq_some_iff] at hrun
      obtain ⟨s₁, hs₁, hrest⟩ := hrun
      exact ih (h.2 s₁ hs₁) (hstep s a s₁ hs h.1 hs₁) hrest

/-- **Invariant rule for a run** from a state where the invariant holds. -/
theorem invariant_of_run {I : S → Prop}
    (hstep : ∀ s a s', I s → M.step s a = some s' → I s') {s s' : S} {as : List A} (hs : I s)
    (hrun : M.run s as = some s') : I s' :=
  (meets_of_forall (Q := fun _ => True) s fun _ _ => trivial).invariant
    (fun s a s' hI _ => hstep s a s' hI) hs hrun

/-- **Termination rule**: where every step keeps an invariant and makes a
measure smaller, the measure bounds the length of a run. -/
theorem length_le_of_run {I : S → Prop} {f : S → Nat}
    (hstep : ∀ s a s', I s → M.step s a = some s' → I s' ∧ f s' < f s) {s s' : S}
    {as : List A} (hs : I s) (hrun : M.run s as = some s') : as.length ≤ f s := by
  induction as generalizing s with
  | nil => exact Nat.zero_le _
  | cons a as ih =>
      rw [run_cons, Option.bind_eq_some_iff] at hrun
      obtain ⟨s₁, hs₁, hrest⟩ := hrun
      obtain ⟨hI, hlt⟩ := hstep s a s₁ hs hs₁
      have hle := ih hI hrest
      rw [List.length_cons]
      omega

/-- The run of `as` from `s` passes through `t`. -/
def Visits (M : System S A) (s : S) (as : List A) (t : S) : Prop :=
  ∃ mid, mid <+: as ∧ M.run s mid = some t

theorem visits_of_run {s t : S} {as : List A} (h : M.run s as = some t) : M.Visits s as t :=
  ⟨as, List.prefix_rfl, h⟩

theorem Visits.append {s t : S} {as : List A} (h : M.Visits s as t) (bs : List A) :
    M.Visits s (as ++ bs) t := by
  obtain ⟨mid, hmid, hrun⟩ := h
  exact ⟨mid, hmid.trans (List.prefix_append as bs), hrun⟩

end System

end Linuxyz
