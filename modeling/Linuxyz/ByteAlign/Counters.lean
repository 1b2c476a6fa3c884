import Mathlib.Logic.Function.Basic
import Linuxyz.Lib.System

/-!
# Linuxyz.ByteAlign.Counters

The measurement of `data-byte-align`: `thread_one` adds the number of each round
to three counters of every array entry, `thread_two` subtracts it, and a spinlock
made of a compare-exchange keeps their rounds apart.

A step is one attempt to take the lock, one load, one store or the release of the
lock.  Under mutual exclusion a counter is always the sum of the rounds that
`thread_one` has applied to it, less those that `thread_two` has, in the width of
the counter.
-/

namespace Linuxyz.ByteAlign

/-- The fields of `align_or_not`. -/
inductive Field where
  | number1
  | number2
  | number3
deriving DecidableEq, Repr

def Field.width : Field → Nat
  | .number1 | .number3 => 32
  | .number2 => 16

/-- `round_arr` -/
abbrev Arr := Nat → (f : Field) → BitVec f.width

inductive Tid where
  | one
  | two
deriving DecidableEq, Repr

/-- Where a thread is in a round; `store` has the value that was loaded. -/
inductive Pc where
  | lock
  | load (j : Nat) (f : Field)
  | store (j : Nat) (f : Field) (v : BitVec f.width)
  | unlock
  | done
deriving DecidableEq, Repr

structure Thread where
  i : Nat
  pc : Pc
deriving DecidableEq, Repr

structure State where
  spinlock : Nat
  arr : Arr
  threads : Tid → Thread

/-! ## The threads -/

/-- The test of the loop over the array. -/
def atEntry (len j : Nat) : Pc := if j < len then .load j .number1 else .unlock

/-- The test of the loop over the rounds. -/
def atRound (rounds i : Nat) : Pc := if i < rounds then .lock else .done

/-- What follows the update of a field. -/
def next (len j : Nat) : Field → Pc
  | .number1 => .load j .number2
  | .number2 => .load j .number3
  | .number3 => atEntry len (j + 1)

/-- `num`, converted to the width of a counter. -/
def num (w i : Nat) : BitVec w := BitVec.ofNat w (i % 65536)

/-- `+= num` and `-= num` -/
def Tid.combine {w : Nat} (v num : BitVec w) : Tid → BitVec w
  | .one => v + num
  | .two => v - num

/-- A store to `round_arr[j]`. -/
def Arr.set (arr : Arr) (j : Nat) (f : Field) (v : BitVec f.width) : Arr :=
  Function.update arr j (Function.update (arr j) f v)

/-- The threads when one of them goes on. -/
def State.goto (s : State) (t : Tid) (pc : Pc) : Tid → Thread :=
  Function.update s.threads t ⟨(s.threads t).i, pc⟩

/-- The next operation of a thread. -/
def step (len rounds : Nat) (s : State) (t : Tid) : Option State :=
  match (s.threads t).pc with
  | .lock =>
      -- a failed compare-exchange is tried again
      if s.spinlock = 0 then some ⟨1, s.arr, s.goto t (atEntry len 0)⟩ else some s
  | .load j f => some ⟨s.spinlock, s.arr, s.goto t (.store j f (s.arr j f))⟩
  | .store j f v =>
      some ⟨s.spinlock, s.arr.set j f (t.combine v (num f.width (s.threads t).i)),
        s.goto t (next len j f)⟩
  | .unlock =>
      let i := (s.threads t).i + 1
      some ⟨0, s.arr, Function.update s.threads t ⟨i, atRound rounds i⟩⟩
  | .done => none

def State.start (rounds : Nat) : State := ⟨0, fun _ _ => 0, fun _ => ⟨0, atRound rounds 0⟩⟩

def counters (len rounds : Nat) : System State Tid where
  init s := s = .start rounds
  step := step len rounds

/-- Between `spinlock_lock` and `spinlock_unlock`. -/
def Pc.Inside : Pc → Prop
  | .load _ _ | .store _ _ _ | .unlock => True
  | .lock | .done => False

/-! ## What has been applied -/

/-- The number of a counter in the order of the updates. -/
def pos (j : Nat) : Field → Nat
  | .number1 => 3 * j
  | .number2 => 3 * j + 1
  | .number3 => 3 * j + 2

/-- How many counters a thread has updated in its round. -/
def Pc.updated (len : Nat) : Pc → Nat
  | .lock | .done => 0
  | .load j f | .store j f _ => pos j f
  | .unlock => 3 * len

/-- How many rounds a thread has applied to a counter. -/
def Thread.applied (len : Nat) (th : Thread) (j : Nat) (f : Field) : Nat :=
  if pos j f < th.pc.updated len then th.i + 1 else th.i

theorem applied_congr {len : Nat} {th : Thread} {pc : Pc}
    (h : pc.updated len = th.pc.updated len) (j : Nat) (f : Field) :
    Thread.applied len ⟨th.i, pc⟩ j f = th.applied len j f := by
  rw [Thread.applied, Thread.applied, h]

/-- What `c` rounds of a thread come to. -/
def share (w : Nat) (t : Tid) : Nat → BitVec w
  | 0 => 0
  | c + 1 => t.combine (share w t c) (num w c)

/-- The counter in terms of the rounds that were applied to it. -/
def balance (len : Nat) (s : State) (j : Nat) (f : Field) : BitVec f.width :=
  share f.width .one ((s.threads .one).applied len j f) +
    share f.width .two ((s.threads .two).applied len j f)

theorem share_add_share_eq_zero (w c : Nat) : share w .one c + share w .two c = 0 := by
  induction c with
  | zero => simp [share]
  | succ c ih =>
      simp only [share, Tid.combine]
      rw [BitVec.add_assoc, BitVec.add_comm (num w c), BitVec.sub_add_cancel, ih]

theorem pos_inj {j k : Nat} {f g : Field} (h : pos j f = pos k g) : j = k ∧ f = g := by
  cases f <;> cases g <;> simp only [pos] at h <;> first | exact ⟨by omega, rfl⟩ | omega

theorem Arr.set_self (arr : Arr) (j : Nat) (f : Field) (v : BitVec f.width) :
    arr.set j f v j f = v := by
  rw [Arr.set, Function.update_self, Function.update_self]

theorem Arr.set_of_ne (arr : Arr) {j k : Nat} {f g : Field} (h : pos k g ≠ pos j f)
    (v : BitVec f.width) : arr.set j f v k g = arr k g := by
  by_cases hj : k = j
  · subst hj
    have hg : g ≠ f := fun hg => h (by rw [hg])
    rw [Arr.set, Function.update_self, Function.update_of_ne hg]
  · rw [Arr.set, Function.update_of_ne hj]

theorem pos_lt {len j : Nat} (f : Field) (h : j < len) : pos j f < 3 * len := by
  cases f <;> simp only [pos] <;> omega

theorem updated_atEntry {len j : Nat} (h : j ≤ len) : (atEntry len j).updated len = 3 * j := by
  grind [atEntry, Pc.updated, pos]

theorem updated_next {len j : Nat} (h : j < len) (f : Field) :
    (next len j f).updated len = pos j f + 1 := by
  cases f with
  | number1 | number2 => rfl
  | number3 => rw [next, updated_atEntry (Nat.succ_le_of_lt h), pos, Nat.mul_succ]

theorem updated_atRound (len rounds i : Nat) : (atRound rounds i).updated len = 0 := by
  grind [atRound, Pc.updated]

/-! ## Invariants -/

/-- The counters of a thread's program are those of the array, and its rounds
those that it has to make. -/
def Thread.Placed (len rounds : Nat) (th : Thread) : Prop :=
  match th.pc with
  | .load j _ | .store j _ _ => j < len ∧ th.i < rounds
  | .lock | .unlock => th.i < rounds
  | .done => th.i = rounds

theorem placed_atEntry {len rounds i : Nat} (h : i < rounds) (j : Nat) :
    Thread.Placed len rounds ⟨i, atEntry len j⟩ := by
  grind [Thread.Placed, atEntry]

theorem placed_next {len rounds i j : Nat} (hi : i < rounds) (hj : j < len) (f : Field) :
    Thread.Placed len rounds ⟨i, next len j f⟩ := by
  cases f with
  | number1 | number2 => exact ⟨hj, hi⟩
  | number3 => exact placed_atEntry hi (j + 1)

theorem placed_atRound {len rounds i : Nat} (h : i ≤ rounds) :
    Thread.Placed len rounds ⟨i, atRound rounds i⟩ := by
  grind [Thread.Placed, atRound]

theorem next_ne_store (len j : Nat) (f : Field) (k : Nat) (g : Field) (v : BitVec g.width) :
    next len j f ≠ .store k g v := by
  cases f <;> grind [next, atEntry]

theorem not_inside_atRound (rounds i : Nat) : ¬ (atRound rounds i).Inside := by
  grind [atRound, Pc.Inside]

/-- A thread inside holds the lock and is the only one; the value it has loaded is
that of the counter; and every counter is in balance. -/
structure Inv (len rounds : Nat) (s : State) : Prop where
  held : ∀ t, (s.threads t).pc.Inside → s.spinlock = 1
  alone : ∀ t u, (s.threads t).pc.Inside → (s.threads u).pc.Inside → t = u
  placed : ∀ t, (s.threads t).Placed len rounds
  loaded : ∀ t j f v, (s.threads t).pc = .store j f v → v = s.arr j f
  balanced : ∀ j < len, ∀ f, s.arr j f = balance len s j f

/-- At the start no thread holds the lock, and every counter is balanced. -/
theorem inv_start (len rounds : Nat) : Inv len rounds (.start rounds) where
  held _ h := absurd h (not_inside_atRound rounds 0)
  alone _ _ h := absurd h (not_inside_atRound rounds 0)
  placed _ := placed_atRound (Nat.zero_le rounds)
  loaded _ _ _ _ h := by
    simp only [State.start, atRound] at h
    split at h
    · cases h
    · cases h
  balanced j _ f := by simp [balance, State.start, Thread.applied, updated_atRound, share]

/-- A thread's step that applies no round to a counter. -/
theorem balance_update {len : Nat} {s : State} {t : Tid} {th : Thread} {j : Nat} {f : Field}
    (h : th.applied len j f = (s.threads t).applied len j f) (lock : Nat) (arr : Arr) :
    balance len ⟨lock, arr, Function.update s.threads t th⟩ j f = balance len s j f := by
  cases t <;> simp [balance, h]

/-- A thread's step that applies its round. -/
theorem balance_update_succ {len : Nat} {s : State} {t : Tid} {th : Thread} {j : Nat} {f : Field}
    (h : th.applied len j f = (s.threads t).applied len j f + 1) (lock : Nat) (arr : Arr) :
    balance len ⟨lock, arr, Function.update s.threads t th⟩ j f =
      t.combine (balance len s j f) (num f.width ((s.threads t).applied len j f)) := by
  cases t with
  | one =>
      have hother : Function.update s.threads .one th .two = s.threads .two :=
        Function.update_of_ne (by decide) ..
      simp only [balance, Function.update_self, hother, h, share, Tid.combine]
      rw [BitVec.add_assoc, BitVec.add_comm (num f.width _), BitVec.add_assoc]
  | two =>
      have hother : Function.update s.threads .two th .one = s.threads .one :=
        Function.update_of_ne (by decide) ..
      simp only [balance, Function.update_self, hother, h, share, Tid.combine]
      rw [BitVec.sub_eq_add_neg, BitVec.sub_eq_add_neg, BitVec.add_assoc]

/-- A step of a thread while the other one is outside keeps the invariant when it
keeps the thread's own part of it. -/
theorem Inv.update {len rounds : Nat} {s : State} {t : Tid} (h : Inv len rounds s)
    {lock : Nat} {arr : Arr} {th : Thread} (hout : ∀ u, u ≠ t → ¬ (s.threads u).pc.Inside)
    (hheld : th.pc.Inside → lock = 1) (hplaced : th.Placed len rounds)
    (hloaded : ∀ j f v, th.pc = .store j f v → v = arr j f)
    (hbalanced : ∀ j < len, ∀ f, arr j f =
      balance len ⟨lock, arr, Function.update s.threads t th⟩ j f) :
    Inv len rounds ⟨lock, arr, Function.update s.threads t th⟩ := by
  have hself : Function.update s.threads t th t = th := Function.update_self ..
  have hother : ∀ u, u ≠ t → Function.update s.threads t th u = s.threads u := fun u hu =>
    Function.update_of_ne hu ..
  have hinside : ∀ u, (Function.update s.threads t th u).pc.Inside → u = t := by grind
  refine {
    held := ?held, alone := ?alone, placed := ?placed, loaded := ?loaded, balanced := hbalanced }
  case held => exact fun u hu => hheld (by grind)
  case alone => exact fun u v hu hv => (hinside u hu).trans (hinside v hv).symm
  case placed => grind [h.placed]
  case loaded =>
    intro u j f v hpc
    have hpc : (Function.update s.threads t th u).pc = .store j f v := hpc
    obtain rfl := hinside u (by rw [hpc]; trivial)
    exact hloaded j f v (hself ▸ hpc)

/-! ## The steps -/

section Steps

variable {len rounds : Nat} {s : State} {t : Tid}

/-- A thread that finds the lock free takes it and is alone with it. -/
theorem Inv.lock (h : Inv len rounds s) (hpc : (s.threads t).pc = .lock) (hfree : s.spinlock = 0) :
    Inv len rounds ⟨1, s.arr, s.goto t (atEntry len 0)⟩ := by
  have hi : (s.threads t).i < rounds := by simpa only [Thread.Placed, hpc] using h.placed t
  refine h.update (fun u _ hu => ?_) (fun _ => rfl) (placed_atEntry hi 0) (by grind [atEntry])
    fun j hj f => ?_
  · have hheld := h.held u hu
    omega
  · have hsame : (atEntry len 0).updated len = (s.threads t).pc.updated len := by
      rw [updated_atEntry (Nat.zero_le len), hpc]
      rfl
    rw [balance_update (applied_congr hsame j f), ← h.balanced j hj f]

theorem Inv.alone_of_inside (h : Inv len rounds s) (ht : (s.threads t).pc.Inside) (u : Tid)
    (hne : u ≠ t) :
    ¬ (s.threads u).pc.Inside := fun hu => hne (h.alone u t hu ht)

/-- A load takes the value of the field as it is: nobody can change it before the
store. -/
theorem Inv.load (h : Inv len rounds s) {j : Nat} {f : Field} (hpc : (s.threads t).pc = .load j f) :
    Inv len rounds ⟨s.spinlock, s.arr, s.goto t (.store j f (s.arr j f))⟩ := by
  have hin : (s.threads t).pc.Inside := by rw [hpc]; trivial
  have hplaced : j < len ∧ (s.threads t).i < rounds := by
    simpa only [Thread.Placed, hpc] using h.placed t
  refine h.update (h.alone_of_inside hin) (fun _ => h.held t hin) hplaced ?_ fun k hk g => ?_
  · rintro k g v ⟨⟩
    rfl
  · have hsame : (Pc.store j f (s.arr j f)).updated len = (s.threads t).pc.updated len := by
      rw [hpc]; rfl
    rw [balance_update (applied_congr hsame k g), ← h.balanced k hk g]

/-- A store adds the thread's share of the round to what it has loaded, which is still
the value of the field. -/
theorem Inv.store (h : Inv len rounds s) {j : Nat} {f : Field} {v : BitVec f.width}
    (hpc : (s.threads t).pc = .store j f v) :
    Inv len rounds
      ⟨s.spinlock, s.arr.set j f (t.combine v (num f.width (s.threads t).i)),
        s.goto t (next len j f)⟩ := by
  have hin : (s.threads t).pc.Inside := by rw [hpc]; trivial
  have hplaced : j < len ∧ (s.threads t).i < rounds := by
    simpa only [Thread.Placed, hpc] using h.placed t
  refine h.update (h.alone_of_inside hin) (fun _ => h.held t hin)
    (placed_next hplaced.2 hplaced.1 f) ?_
    fun k hk g => ?_
  · intro k g w hstore
    exact absurd hstore (next_ne_store len j f k g w)
  · have hnext := updated_next hplaced.1 f
    have hbefore : (s.threads t).pc.updated len = pos j f := by rw [hpc]; rfl
    by_cases hsame : pos k g = pos j f
    · -- the counter that is stored to
      obtain ⟨rfl, rfl⟩ := pos_inj hsame
      have hold : (s.threads t).applied len k g = (s.threads t).i := by
        rw [Thread.applied, hbefore, if_neg (Nat.lt_irrefl _)]
      have hnew : Thread.applied len ⟨(s.threads t).i, next len k g⟩ k g =
          (s.threads t).applied len k g + 1 := by
        rw [hold, Thread.applied, hnext, if_pos (Nat.lt_succ_self _)]
      rw [balance_update_succ hnew, hold, ← h.balanced k hk g, h.loaded t k g v hpc, Arr.set_self]
    · have hnew : Thread.applied len ⟨(s.threads t).i, next len j f⟩ k g =
          (s.threads t).applied len k g := by
        rw [Thread.applied, Thread.applied, hnext, hbefore]
        grind
      rw [balance_update hnew, ← h.balanced k hk g, Arr.set_of_ne _ hsame]

/-- A thread that unlocks has made all updates of its round. -/
theorem Inv.unlock (h : Inv len rounds s) (hpc : (s.threads t).pc = .unlock) :
    Inv len rounds
      ⟨0, s.arr, Function.update s.threads t ⟨(s.threads t).i + 1,
        atRound rounds ((s.threads t).i + 1)⟩⟩ := by
  have hin : (s.threads t).pc.Inside := by rw [hpc]; trivial
  have hi : (s.threads t).i < rounds := by simpa only [Thread.Placed, hpc] using h.placed t
  refine h.update (h.alone_of_inside hin) (fun hc => absurd hc (not_inside_atRound _ _))
    (placed_atRound hi)
    (by grind [atRound]) fun j hj f => ?_
  have hold : (s.threads t).applied len j f = (s.threads t).i + 1 := by
    rw [Thread.applied, hpc]
    exact if_pos (pos_lt f hj)
  have hnew : Thread.applied len ⟨(s.threads t).i + 1, atRound rounds ((s.threads t).i + 1)⟩ j f =
      (s.threads t).applied len j f := by
    rw [hold, Thread.applied, updated_atRound, if_neg (Nat.not_lt_zero _)]
  rw [balance_update hnew, ← h.balanced j hj f]

/-- One step of a thread. -/
theorem inv_step {s' : State} (h : Inv len rounds s)
    (hstep : (counters len rounds).step s t = some s') : Inv len rounds s' := by
  simp only [counters, step] at hstep
  cases hpc : (s.threads t).pc with
  | lock =>
      simp only [hpc] at hstep
      split at hstep
      case isTrue hfree =>
        cases hstep
        exact h.lock hpc hfree
      case isFalse =>
        cases hstep
        exact h
  | load j f =>
      simp only [hpc, Option.some.injEq] at hstep
      exact hstep ▸ h.load hpc
  | store j f v =>
      simp only [hpc, Option.some.injEq] at hstep
      exact hstep ▸ h.store hpc
  | unlock =>
      simp only [hpc, Option.some.injEq] at hstep
      exact hstep ▸ h.unlock hpc
  | done => simp [hpc] at hstep

end Steps

/-- **The counters cancel.**  In every interleaving of the two threads they are
never both between `spinlock_lock` and `spinlock_unlock`, and when both are done
every counter is 0 in its width. -/
theorem counters_cancel {len rounds : Nat} {s : State} (h : (counters len rounds).Reachable s) :
    ¬ ((s.threads .one).pc.Inside ∧ (s.threads .two).pc.Inside) ∧
      ((s.threads .one).pc = .done → (s.threads .two).pc = .done →
        (s.threads .one).i = rounds ∧ (s.threads .two).i = rounds ∧
          ∀ j < len, ∀ f, s.arr j f = 0) := by
  have hinv : Inv len rounds s :=
    h.invariant (fun s hs => hs ▸ inv_start len rounds) fun _ _ _ hs hstep => inv_step hs hstep
  refine ⟨fun hin => absurd (hinv.alone .one .two hin.1 hin.2) nofun, fun hone htwo => ?_⟩
  have hi : ∀ t, (s.threads t).pc = .done → (s.threads t).i = rounds := fun t ht => by
    simpa only [Thread.Placed, ht] using hinv.placed t
  have happlied : ∀ t, (s.threads t).pc = .done →
      ∀ j f, (s.threads t).applied len j f = rounds := by
    intro t ht j f
    rw [Thread.applied, ht, hi t ht]
    exact if_neg (Nat.not_lt_zero _)
  refine ⟨hi .one hone, hi .two htwo, fun j hj f => ?_⟩
  rw [hinv.balanced j hj f, balance, happlied .one hone, happlied .two htwo,
    share_add_share_eq_zero]

/-- Two rounds over one entry, with `thread_two` waiting for the lock at first. -/
theorem counters_cancel_two :
    ∃ s, (counters 1 2).Reachable s ∧ (s.threads .one).pc = .done ∧ (s.threads .two).pc = .done ∧
      ∀ j < 1, ∀ f, s.arr j f = 0 := by
  have hrun : ((counters 1 2).run (.start 2)
      (Tid.one :: Tid.two :: Tid.two :: List.replicate 7 Tid.one ++ List.replicate 16 Tid.two ++
        List.replicate 8 Tid.one)).map
      (fun s => ((s.threads .one).pc, (s.threads .two).pc)) = some (.done, .done) := by
        decide +kernel
  obtain ⟨s, hs, hdone⟩ := Option.map_eq_some_iff.mp hrun
  have hreach := System.reachable_of_run (.init rfl) hs
  obtain ⟨hone, htwo⟩ := Prod.mk.inj hdone
  exact ⟨s, hreach, hone, htwo, ((counters_cancel hreach).2 hone htwo).2.2⟩

end Linuxyz.ByteAlign
