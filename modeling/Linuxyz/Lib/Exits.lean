/-!
# Linuxyz.Lib.Exits

Computations that can fault, and that can leave early with a value, as a C
function does with `goto` to a common label.

`Ends m Q R` says that `m`, unless it faults, ends with a result in `Q` or leaves
early with a value in `R`, and `Finishes m Q R` that it does so and does not fault.
There is one rule for each way to build `m`.
-/

namespace Linuxyz

variable {ε α β : Type}

/-- Unless `m` faults, it ends with a result in `Q` or leaves with a value in
`R`. -/
structure Ends (m : ExceptT ε Option α) (Q : α → Prop) (R : ε → Prop) : Prop where
  ok : ∀ a, m.run = some (.ok a) → Q a
  error : ∀ e, m.run = some (.error e) → R e

namespace Ends

variable {Q P : α → Prop} {R : ε → Prop} {m : ExceptT ε Option α}

theorem pure (h : Q a) : Ends (Pure.pure a) Q R where
  ok := by
    rintro b ⟨⟩
    exact h
  error := nofun

theorem throw (h : R e) : Ends (MonadExcept.throw e) Q R where
  ok := nofun
  error := by
    rintro e' ⟨⟩
    exact h

theorem fault : Ends (ExceptT.mk none) Q R := ⟨nofun, nofun⟩

/-- What follows has to deal with the results of the first part only. -/
theorem bind {f : α → ExceptT ε Option β} {Q : β → Prop} (hm : Ends m P R)
    (hf : ∀ a, P a → Ends (f a) Q R) : Ends (m >>= f) Q R := by
  have hrun : (m >>= f).run = m.run.bind fun
      | .ok a => (f a).run
      | .error e => some (.error e) := rfl
  cases hm' : m.run with
  | none =>
      rw [hm', Option.bind_none] at hrun
      constructor <;> (intro r hr; rw [hrun] at hr; cases hr)
  | some r =>
      rw [hm', Option.bind_some] at hrun
      cases r with
      | ok a => exact ⟨fun b hb => (hf a (hm.ok a hm')).ok b (hrun.symm.trans hb),
          fun e he => (hf a (hm.ok a hm')).error e (hrun.symm.trans he)⟩
      | error e =>
          constructor
          · intro b hb
            rw [hrun] at hb
            cases hb
          · intro e' he
            rw [hrun] at he
            cases he
            exact hm.error e hm'

/-- What comes after a fault or an early exit does not run. -/
theorem fault_bind {f : α → ExceptT ε Option β} {Q : β → Prop} : Ends (ExceptT.mk none >>= f) Q R :=
  ⟨nofun, nofun⟩

theorem throw_bind {f : α → ExceptT ε Option β} {Q : β → Prop} (h : R e) :
    Ends (MonadExcept.throw e >>= f) Q R := (throw (Q := fun _ => False) h).bind fun _ hf => hf.elim

end Ends

/-- `m` does not fault, and ends with a result in `Q` or leaves with a value in `R`. -/
structure Finishes (m : ExceptT ε Option α) (Q : α → Prop) (R : ε → Prop) : Prop
    extends Ends m Q R where
  returns : m.run ≠ none

namespace Finishes

variable {Q P : α → Prop} {R : ε → Prop} {m : ExceptT ε Option α}

theorem pure (h : Q a) : Finishes (Pure.pure a) Q R := ⟨.pure h, Option.some_ne_none _⟩

theorem throw (h : R e) : Finishes (MonadExcept.throw e) Q R := ⟨.throw h, Option.some_ne_none _⟩

theorem bind {f : α → ExceptT ε Option β} {Q : β → Prop} (hm : Finishes m P R)
    (hf : ∀ a, P a → Finishes (f a) Q R) : Finishes (m >>= f) Q R where
  toEnds := hm.toEnds.bind fun a ha => (hf a ha).toEnds
  returns := by
    have hrun : (m >>= f).run = m.run.bind fun
        | .ok a => (f a).run
        | .error e => some (.error e) := rfl
    obtain ⟨r, hr⟩ := Option.ne_none_iff_exists'.mp hm.returns
    rw [hrun, hr, Option.bind_some]
    cases r with
    | ok a => exact (hf a (hm.ok a hr)).returns
    | error e => exact Option.some_ne_none _

theorem throw_bind {f : α → ExceptT ε Option β} {Q : β → Prop} (h : R e) :
    Finishes (MonadExcept.throw e >>= f) Q R :=
  (throw (Q := fun _ => False) h).bind fun _ hf => hf.elim

/-- What `m` has come to. -/
theorem cases_run (h : Finishes m Q R) :
    (∃ a, m.run = some (.ok a) ∧ Q a) ∨ ∃ e, m.run = some (.error e) ∧ R e := by
  obtain ⟨r, hr⟩ := Option.ne_none_iff_exists'.mp h.returns
  cases r with
  | ok a => exact .inl ⟨a, hr, h.ok a hr⟩
  | error e => exact .inr ⟨e, hr, h.error e hr⟩

end Finishes

end Linuxyz
