import Linuxyz.Cmap.Inv
import Linuxyz.Lib.System
import Mathlib.Algebra.BigOperators.Group.Finset.Basic
import Mathlib.Data.Fintype.BigOperators
import Mathlib.Data.UInt

/-!
# Linuxyz.Cmap.Threads

Threads that call `cmap_get` with `_inc_func` or `_dec_func` on one map.

A step is a statement of one thread: locking the mutex of the bucket, reading
its head, one round of the search loop, the load and the store of the callback,
and the unlock.  A search that ends without an entry sets `idx` to -1, so its
unlock does not reach the mutex of the bucket, and the thread ends; `lost` is a
thread that has done that.

`Inv` says where each thread is: it holds the mutex of the bucket of its key
and nothing else, the entry of its key lies ahead of it in the list, and a
value it is about to store is computed from the value that is there.
-/

namespace Linuxyz.Cmap

open Function (update update_self update_of_ne)

/-! ## the threads -/

/-- The callbacks the threads pass. -/
inductive Op where
  | inc
  | dec
deriving DecidableEq

def Op.cb : Op → Callback
  | .inc => incFunc
  | .dec => decFunc

/-- One call `cmap_get(cm, &key, &key, cb)`. -/
structure Job where
  op : Op
  key : UInt64
deriving DecidableEq

/-- The calls of `increase_thread`. -/
def increaseThread (totalValCount : Nat) : List Job :=
  (List.range totalValCount).map fun i => ⟨.inc, UInt64.ofNat i⟩

/-- The calls of `decrease_thread`. -/
def decreaseThread (totalValCount : Nat) : List Job :=
  (List.range totalValCount).map fun i => ⟨.dec, UInt64.ofNat i⟩

/-- Where a thread is in `cmap_get`. -/
inductive Pc where
  | idle
  | head
  | visit (data : Option Addr)
  | found (data : Addr)
  | write (data : Addr) (value : UInt64)
  | leave
  | lost
deriving DecidableEq

/-- The map, the owners of its mutexes, and for each thread the calls it has
still to finish and where it is in the first of them. -/
structure Pool (n : Nat) where
  map : BogusCmap
  owner : Nat → Option (Fin n)
  todo : Fin n → List Job
  pc : Fin n → Pc

variable {n : Nat} {s s' : Pool n} {t u : Fin n} {j : Job} {rest : List Job}

/-- Thread `t` goes on to another statement. -/
def Pool.goto (s : Pool n) (t : Fin n) (pc : Pc) : Pool n :=
  { s with pc := update s.pc t pc }

/-- Thread `t` locks the mutex of bucket `i`. -/
def Pool.lock (s : Pool n) (t : Fin n) (i : Nat) : Pool n :=
  { s with owner := update s.owner i (some t), pc := update s.pc t .head }

/-- Thread `t` writes to the entry at `a`. -/
def Pool.store (s : Pool n) (t : Fin n) (a : Addr) (e : Entry) : Pool n :=
  { s with map := s.map.store a e, pc := update s.pc t .leave }

/-- Thread `t` unlocks the mutex of bucket `i` and has `rest` left to do. -/
def Pool.unlock (s : Pool n) (t : Fin n) (i : Nat) (rest : List Job) : Pool n :=
  { s with
    owner := update s.owner i none
    todo := update s.todo t rest
    pc := update s.pc t .idle }

/-- One statement of thread `t`; `none` when it has ended, waits for a mutex or
faults. -/
def getStep (s : Pool n) (t : Fin n) : Option (Pool n) :=
  match s.todo t with
  | [] => none
  | j :: rest =>
      let i := s.map.idx j.key
      match s.pc t with
      | .idle =>
          if s.owner i = none then some (s.lock t i) else none
      | .head => some (s.goto t (.visit (s.map.buck i)))
      | .visit none => some (s.goto t .lost)
      | .visit (some a) =>
          (s.map.heap a).map fun e =>
            if e.inUse ≠ 0 ∧ e.index = j.key then s.goto t (.found a) else s.goto t (.visit e.next)
      | .found a => (s.map.heap a).map fun e => s.goto t (.write a (j.op.cb e).value)
      | .write a v => (s.map.heap a).map fun e => s.store t a { e with value := v }
      | .leave => some (s.unlock t i rest)
      | .lost => none

/-- The threads start with their calls and no mutex locked. -/
def Pool.start (m : BogusCmap) (progs : Fin n → List Job) : Pool n :=
  ⟨m, fun _ => none, progs, fun _ => .idle⟩

/-- Every interleaving of the threads. -/
def poolSystem (m : BogusCmap) (progs : Fin n → List Job) : System (Pool n) (Fin n) where
  init s := s = .start m progs
  step := getStep

/-- Every thread has returned from its last call. -/
def Pool.Finished (s : Pool n) : Prop := ∀ t, s.todo t = []

/-- What one statement does. -/
inductive Move (s : Pool n) (t : Fin n) (j : Job) (rest : List Job) : Pool n → Prop where
  | lock : s.pc t = .idle → s.owner (s.map.idx j.key) = none →
      Move s t j rest (s.lock t (s.map.idx j.key))
  | head : s.pc t = .head → Move s t j rest (s.goto t (.visit (s.map.buck (s.map.idx j.key))))
  | miss : s.pc t = .visit none → Move s t j rest (s.goto t .lost)
  | hit : s.pc t = .visit (some a) → s.map.heap a = some e → e.inUse ≠ 0 → e.index = j.key →
      Move s t j rest (s.goto t (.found a))
  | next : s.pc t = .visit (some a) → s.map.heap a = some e → ¬ (e.inUse ≠ 0 ∧ e.index = j.key) →
      Move s t j rest (s.goto t (.visit e.next))
  | load : s.pc t = .found a → s.map.heap a = some e →
      Move s t j rest (s.goto t (.write a (j.op.cb e).value))
  | write : s.pc t = .write a v → s.map.heap a = some e →
      Move s t j rest (s.store t a { e with value := v })
  | leave : s.pc t = .leave → Move s t j rest (s.unlock t (s.map.idx j.key) rest)

/-- A thread steps in the job in front of its list, by one of the moves of
`cmap_get`. -/
theorem getStep_cases (h : getStep s t = some s') :
    ∃ j rest, s.todo t = j :: rest ∧ Move s t j rest s' := by
  unfold getStep at h
  cases htodo : s.todo t with
  | nil => rw [htodo] at h; cases h
  | cons j rest =>
      rw [htodo] at h
      refine ⟨j, rest, rfl, ?_⟩
      cases hpc : s.pc t with
      | idle =>
          simp only [hpc, Option.ite_none_right_eq_some] at h
          obtain ⟨hfree, hs⟩ := h
          cases hs
          exact .lock hpc hfree
      | head =>
          simp only [hpc, Option.some.injEq] at h
          exact h ▸ .head hpc
      | visit p =>
          cases p with
          | none =>
              simp only [hpc, Option.some.injEq] at h
              exact h ▸ .miss hpc
          | some a =>
              simp only [hpc, Option.map_eq_some_iff] at h
              obtain ⟨e, hget, hs⟩ := h
              split at hs
              case isTrue hmatch => exact hs ▸ .hit hpc hget hmatch.1 hmatch.2
              case isFalse hother => exact hs ▸ .next hpc hget hother
      | found a =>
          simp only [hpc, Option.map_eq_some_iff] at h
          obtain ⟨e, hget, hs⟩ := h
          exact hs ▸ .load hpc hget
      | write a v =>
          simp only [hpc, Option.map_eq_some_iff] at h
          obtain ⟨e, hget, hs⟩ := h
          exact hs ▸ .write hpc hget
      | leave =>
          simp only [hpc, Option.some.injEq] at h
          exact h ▸ .leave hpc
      | lost =>
          simp only [hpc] at h
          cases h

/-! ## where the threads are -/

/-- The entries in use are one for each of the keys, at `target`. -/
structure Home (m : BogusCmap) (nodes : Nat → List Addr) (target : UInt64 → Addr)
    (keys : List UInt64) : Prop where
  mem : ∀ k ∈ keys, target k ∈ nodes (m.idx k)
  get : ∀ k ∈ keys, ∃ e, m.heap (target k) = some e ∧ e.inUse ≠ 0 ∧ e.index = k
  only : ∀ a e, m.heap a = some e → e.inUse ≠ 0 → e.index ∈ keys ∧ a = target e.index

/-- An entry that is not in use has value 0. -/
def Zeroed (m : BogusCmap) : Prop := ∀ a e, m.heap a = some e → e.inUse = 0 → e.value = 0

/-- A thread in a call finds the entry of its key ahead of it. -/
def At (m : BogusCmap) (target : UInt64 → Addr) (j : Job) : Pc → Prop
  | .visit p => ∃ l, Chain Entry.next m.heap p l ∧ target j.key ∈ l
  | .found a => a = target j.key
  | .write a v => a = target j.key ∧ ∃ e, m.heap a = some e ∧ v = (j.op.cb e).value
  | .lost => False
  | _ => True

structure Inv (nodes : Nat → List Addr) (target : UInt64 → Addr) (keys : List UInt64) (s : Pool n) :
    Prop where
  wf : Wf s.map nodes
  home : Home s.map nodes target keys
  zero : Zeroed s.map
  jobs : ∀ t, ∀ j ∈ s.todo t, j.key ∈ keys
  running : ∀ t, s.pc t ≠ .idle → ∃ j rest, s.todo t = j :: rest ∧
    s.owner (s.map.idx j.key) = some t ∧ At s.map target j (s.pc t)
  owned : ∀ b t, s.owner b = some t → s.pc t ≠ .idle ∧ ∃ j rest, s.todo t = j :: rest ∧
    b = s.map.idx j.key

variable {m : BogusCmap} {nodes : Nat → List Addr} {target : UInt64 → Addr} {keys : List UInt64}

/-- The pool of threads in front of a map in which every key of their jobs is in use. -/
theorem inv_start {progs : Fin n → List Job} (hwf : Wf m nodes) (hhome : Home m nodes target keys)
    (hzero : Zeroed m) (hprogs : ∀ t, ∀ j ∈ progs t, j.key ∈ keys) :
    Inv nodes target keys (Pool.start m progs) where
  wf := hwf
  home := hhome
  zero := hzero
  jobs := hprogs
  running := fun _ hpc => absurd rfl hpc
  owned := fun _ _ ho => by cases ho

/-- A thread in a call holds the mutex of its bucket. -/
theorem Inv.current (h : Inv nodes target keys s) (htodo : s.todo t = j :: rest)
    (hpc : s.pc t ≠ .idle) : s.owner (s.map.idx j.key) = some t ∧ At s.map target j (s.pc t) := by
  obtain ⟨j', rest', htodo', howner, hat⟩ := h.running t hpc
  rw [htodo] at htodo'
  cases htodo'
  exact ⟨howner, hat⟩

/-! ## storing a value -/

/-- A store to the value of an entry keeps everything else. -/
theorem heap_of_store_value (hget : m.heap a = some e) (v : UInt64)
    (hx : (m.store a { e with value := v }).heap x = some e') :
    ∃ e₀, m.heap x = some e₀ ∧ e'.index = e₀.index ∧ e'.inUse = e₀.inUse := by
  by_cases hxa : x = a
  · subst hxa
    rw [m.store_self] at hx
    obtain rfl := Option.some.inj hx
    exact ⟨e, hget, rfl, rfl⟩
  · rw [m.store_of_ne _ hxa] at hx
    exact ⟨e', hx, rfl, rfl⟩

theorem heap_store_value (hget : m.heap a = some e) (v : UInt64) (hx : m.heap x = some e₀) :
    ∃ e', (m.store a { e with value := v }).heap x = some e' ∧ e'.index = e₀.index ∧
      e'.inUse = e₀.inUse ∧ e'.next = e₀.next := by
  by_cases hxa : x = a
  · subst hxa
    obtain rfl := Option.some.inj (hget.symm.trans hx)
    exact ⟨_, m.store_self .., rfl, rfl, rfl⟩
  · exact ⟨e₀, (m.store_of_ne _ hxa).trans hx, rfl, rfl, rfl⟩

/-- A store of a value leaves each key in the entry where it was. -/
theorem Home.store_value (h : Home m nodes target keys) (hget : m.heap a = some e) (v : UInt64) :
    Home (m.store a { e with value := v }) nodes target keys where
  mem := h.mem
  get := by
    intro k hk
    obtain ⟨e₀, he₀, hin, hindex⟩ := h.get k hk
    obtain ⟨e', he', hindex', hin', -⟩ := heap_store_value hget v he₀
    exact ⟨e', he', hin' ▸ hin, hindex'.trans hindex⟩
  only := by
    intro x e' hx hin
    obtain ⟨e₀, he₀, hindex, hin'⟩ := heap_of_store_value hget v hx
    rw [hindex]
    exact h.only x e₀ he₀ (hin' ▸ hin)

/-- A store of an entry in use keeps every free one at 0. -/
theorem Zeroed.store (h : Zeroed m) (a : Addr) (hin : e.inUse ≠ 0) : Zeroed (m.store a e) := by
  intro x e' hx hfree
  by_cases hxa : x = a
  · subst hxa
    rw [m.store_self] at hx
    cases hx
    exact absurd hfree hin
  · rw [m.store_of_ne _ hxa] at hx
    exact h x e' hx hfree

/-- A store of a value to another entry leaves a thread where it is in its search. -/
theorem At.store_value (h : At m target j pc) (hget : m.heap a = some e) (v : UInt64)
    (hother : a ≠ target j.key) : At (m.store a { e with value := v }) target j pc := by
  cases pc with
  | visit p =>
      obtain ⟨l, hchain, hmem⟩ := h
      refine ⟨l, hchain.congr fun x _ e₀ hx => ?_, hmem⟩
      obtain ⟨e', he', -, -, hnext⟩ := heap_store_value hget v hx
      exact ⟨e', he', hnext⟩
  | write x w =>
      obtain ⟨rfl, e₀, hx, hw⟩ := h
      exact ⟨rfl, e₀, (m.store_of_ne _ (Ne.symm hother)).trans hx, hw⟩
  | _ => exact h

/-! ## one statement -/

/-- A thread in a call moves on. -/
theorem Inv.goto (h : Inv nodes target keys s) (htodo : s.todo t = j :: rest) (hpc : s.pc t ≠ .idle)
    (hpc' : pc ≠ .idle) (hat : At s.map target j pc) : Inv nodes target keys (s.goto t pc) where
  wf := h.wf
  home := h.home
  zero := h.zero
  jobs := h.jobs
  running := by
    intro u hu
    by_cases hut : u = t
    · subst hut
      exact ⟨j, rest, htodo, (h.current htodo hpc).1, by simpa [Pool.goto] using hat⟩
    · simp only [Pool.goto, update_of_ne hut] at hu ⊢
      exact h.running u hu
  owned := by
    intro b u hu
    obtain ⟨hidle, hjob⟩ := h.owned b u hu
    refine ⟨?_, hjob⟩
    by_cases hut : u = t
    · simpa [Pool.goto, hut] using hpc'
    · simpa [Pool.goto, hut] using hidle

/-- A thread takes the free mutex of its bucket. -/
theorem Inv.lock (h : Inv nodes target keys s) (htodo : s.todo t = j :: rest)
    (hfree : s.owner (s.map.idx j.key) = none) :
    Inv nodes target keys (s.lock t (s.map.idx j.key)) where
  wf := h.wf
  home := h.home
  zero := h.zero
  jobs := h.jobs
  running := by
    intro u hu
    by_cases hut : u = t
    · subst hut
      exact ⟨j, rest, htodo, update_self .., by simp [Pool.lock, At]⟩
    · simp only [Pool.lock, update_of_ne hut] at hu ⊢
      obtain ⟨j', rest', htodo', howner, hat⟩ := h.running u hu
      have hne : s.map.idx j'.key ≠ s.map.idx j.key := by
        intro heq
        rw [heq, hfree] at howner
        cases howner
      exact ⟨j', rest', htodo', (update_of_ne hne ..).trans howner, hat⟩
  owned := by
    intro b u hu
    by_cases hb : b = s.map.idx j.key
    · subst hb
      simp only [Pool.lock, update_self, Option.some.injEq] at hu
      subst hu
      exact ⟨by simp [Pool.lock], j, rest, htodo, rfl⟩
    · simp only [Pool.lock, update_of_ne hb] at hu
      obtain ⟨hidle, hjob⟩ := h.owned b u hu
      refine ⟨?_, hjob⟩
      by_cases hut : u = t
      · simp [Pool.lock, hut]
      · simpa [Pool.lock, hut] using hidle

/-- Two threads in a call work on different entries. -/
theorem Inv.target_ne (h : Inv nodes target keys s) (htu : u ≠ t) (htodo : s.todo t = j :: rest)
    (hpc : s.pc t ≠ .idle) (htodo' : s.todo u = j' :: rest')
    (howner : s.owner (s.map.idx j'.key) = some u) : target j.key ≠ target j'.key := by
  intro heq
  obtain ⟨e, hget, -, hkey⟩ := h.home.get j.key (h.jobs t j (by rw [htodo]; simp))
  obtain ⟨e', hget', -, hkey'⟩ := h.home.get j'.key (h.jobs u j' (by rw [htodo']; simp))
  -- one entry means one key, hence one bucket and one owner of its mutex
  rw [heq, hget'] at hget
  cases hget
  have howner' := (h.current htodo hpc).1
  rw [← hkey, hkey', howner] at howner'
  exact htu (Option.some.inj howner')

/-- A thread stores the value of its entry. -/
theorem Inv.write (h : Inv nodes target keys s) (htodo : s.todo t = j :: rest)
    (hpc : s.pc t = .write a v) (hget : s.map.heap a = some e) :
    Inv nodes target keys (s.store t a { e with value := v }) := by
  have hidle : s.pc t ≠ .idle := by simp [hpc]
  obtain ⟨howner, hat⟩ := h.current htodo hidle
  rw [hpc] at hat
  obtain ⟨rfl, -⟩ := hat
  have hkey : j.key ∈ keys := h.jobs t j (by rw [htodo]; simp)
  obtain ⟨e₀, hget₀, hin, hindex⟩ := h.home.get j.key hkey
  rw [hget] at hget₀
  cases hget₀
  have hwf : Wf (s.map.store (target j.key) { e with value := v }) nodes :=
    h.wf.store (h.home.mem j.key hkey) hget rfl fun _ => by rw [hindex]
  refine ⟨hwf, h.home.store_value hget v, h.zero.store _ hin,
    h.jobs, fun u hu => ?_, fun b u hu => ?_⟩
  · by_cases hut : u = t
    · subst hut
      exact ⟨j, rest, htodo, howner, by simp [Pool.store, At]⟩
    · simp only [Pool.store, update_of_ne hut] at hu ⊢
      obtain ⟨j', rest', htodo', howner', hat'⟩ := h.running u hu
      exact ⟨j', rest', htodo', howner',
        hat'.store_value hget v (h.target_ne hut htodo hidle htodo' howner')⟩
  · obtain ⟨hidle', hjob⟩ := h.owned b u hu
    refine ⟨?_, hjob⟩
    by_cases hut : u = t
    · simp [Pool.store, hut]
    · simpa [Pool.store, hut] using hidle'

/-- A thread unlocks its mutex and goes on to its next call. -/
theorem Inv.leave (h : Inv nodes target keys s) (htodo : s.todo t = j :: rest)
    (hpc : s.pc t = .leave) : Inv nodes target keys (s.unlock t (s.map.idx j.key) rest) := by
  obtain ⟨howner, -⟩ := h.current htodo (by simp [hpc])
  refine ⟨h.wf, h.home, h.zero, fun u j' hj' => ?_, fun u hu => ?_, fun b u hu => ?_⟩
  · by_cases hut : u = t
    · subst hut
      simp only [Pool.unlock, update_self] at hj'
      exact h.jobs u j' (by rw [htodo]; exact List.mem_cons_of_mem _ hj')
    · simp only [Pool.unlock, update_of_ne hut] at hj'
      exact h.jobs u j' hj'
  · have hut : u ≠ t := by
      rintro rfl
      simp [Pool.unlock] at hu
    simp only [Pool.unlock, update_of_ne hut] at hu ⊢
    obtain ⟨j', rest', htodo', howner', hat⟩ := h.running u hu
    have hne : s.map.idx j'.key ≠ s.map.idx j.key := by
      intro heq
      rw [heq, howner] at howner'
      exact hut (Option.some.inj howner').symm
    exact ⟨j', rest', htodo', (update_of_ne hne ..).trans howner', hat⟩
  · have hb : b ≠ s.map.idx j.key := by
      rintro rfl
      simp [Pool.unlock] at hu
    simp only [Pool.unlock, update_of_ne hb] at hu
    obtain ⟨hidle, j', rest', htodo', hb'⟩ := h.owned b u hu
    have hut : u ≠ t := by
      rintro rfl
      rw [htodo] at htodo'
      cases htodo'
      exact hb hb'
    simp only [Pool.unlock, update_of_ne hut]
    exact ⟨hidle, j', rest', htodo', hb'⟩

/-- One step of a thread. -/
theorem Inv.of_move (h : Inv nodes target keys s) (htodo : s.todo t = j :: rest)
    (hmove : Move s t j rest s') : Inv nodes target keys s' := by
  have hkey : j.key ∈ keys := h.jobs t j (by rw [htodo]; simp)
  cases hmove with
  | lock _ hfree => exact h.lock htodo hfree
  | head hpc =>
      have hmem := h.home.mem j.key hkey
      exact h.goto htodo (by simp [hpc]) (by simp) ⟨_, h.wf.chain _ (h.wf.idx_lt j.key), hmem⟩
  | miss hpc =>
      have hat := (h.current htodo (by simp [hpc])).2
      rw [hpc] at hat
      obtain ⟨l, hchain, hmem⟩ := hat
      cases hchain
      cases hmem
  | @hit a e hpc hget hin hindex =>
      have ha : a = target j.key := hindex ▸ (h.home.only a e hget hin).2
      exact h.goto htodo (by simp [hpc]) (by simp) ha
  | @next a e hpc hget hother =>
      have hat := (h.current htodo (by simp [hpc])).2
      rw [hpc] at hat
      obtain ⟨l, hchain, hmem⟩ := hat
      cases hchain with
      | cons hget' htail =>
          rw [hget] at hget'
          cases hget'
          -- the entry just passed is not the one of the key
          have hne : target j.key ≠ a := by
            intro heq
            obtain ⟨e', he', hin', hindex'⟩ := h.home.get j.key hkey
            rw [heq, hget] at he'
            cases he'
            exact hother ⟨hin', hindex'⟩
          exact h.goto htodo (by simp [hpc]) (by simp) ⟨_, htail,
            (List.mem_cons.mp hmem).resolve_left hne⟩
  | load hpc hget =>
      have hat := (h.current htodo (by simp [hpc])).2
      rw [hpc] at hat
      exact h.goto htodo (by simp [hpc]) (by simp) ⟨hat, _, hget, rfl⟩
  | write hpc hget => exact h.write htodo hpc hget
  | leave hpc => exact h.leave htodo hpc

/-! ## progress -/

/-- A thread in a call is never stuck. -/
theorem Inv.enabled (h : Inv nodes target keys s) (hpc : s.pc t ≠ .idle) :
    (getStep s t).isSome := by
  obtain ⟨j, rest, htodo, -, hat⟩ := h.running t hpc
  have hkey : j.key ∈ keys := h.jobs t j (by rw [htodo]; simp)
  unfold getStep
  cases hpc' : s.pc t with
  | idle => exact absurd hpc' hpc
  | head => simp [htodo]
  | visit p =>
      rw [hpc'] at hat
      obtain ⟨l, hchain, hmem⟩ := hat
      cases hchain with
      | nil => cases hmem
      | cons hget _ => simp [htodo, hget]
  | found a =>
      rw [hpc'] at hat
      obtain ⟨e, hget, -⟩ := h.home.get j.key hkey
      rw [← show a = target j.key from hat] at hget
      simp [htodo, hget]
  | write a v =>
      rw [hpc'] at hat
      obtain ⟨-, e, hget, -⟩ := hat
      simp [htodo, hget]
  | leave => simp [htodo]
  | lost =>
      rw [hpc'] at hat
      exact hat.elim

/-- A thread that cannot go on has ended, or waits for a mutex whose owner can. -/
theorem Inv.waits (h : Inv nodes target keys s) (htodo : s.todo t = j :: rest) :
    (getStep s t).isSome ∨ ∃ u, s.owner (s.map.idx j.key) = some u ∧ (getStep s u).isSome := by
  by_cases hpc : s.pc t = .idle
  · cases howner : s.owner (s.map.idx j.key) with
    | none =>
        left
        simp [getStep, htodo, hpc, howner]
    | some u => exact .inr ⟨u, rfl, h.enabled (h.owned _ u howner).1⟩
  · exact .inl (h.enabled hpc)

/-! ## termination -/

/-- The statements left in a call. -/
def Pc.left (m : BogusCmap) : Pc → Nat
  | .idle => m.nextAddr + 6
  | .head => m.nextAddr + 5
  | .visit p => (addresses Entry.next m.heap m.fuel p).length + 3
  | .found _ => 3
  | .write _ _ => 2
  | .leave => 1
  | .lost => 0

/-- A bound on the statements left in a thread. -/
def work (s : Pool n) (t : Fin n) : Nat :=
  match s.todo t with
  | [] => 0
  | _ :: rest => rest.length * (s.map.nextAddr + 7) + (s.pc t).left s.map

/-- A store of a value does not change how far a search has to go. -/
theorem left_store_value (hget : m.heap a = some e) (v : UInt64) (pc : Pc) :
    pc.left (m.store a { e with value := v }) = pc.left m := by
  cases pc with
  | visit p =>
      have hlink : ∀ x, ((m.store a { e with value := v }).heap x).map Entry.next =
          (m.heap x).map Entry.next := by
        intro x
        by_cases hx : x = a
        · subst hx
          rw [m.store_self, hget]
          rfl
        · rw [m.store_of_ne _ hx]
      simp only [Pc.left, addresses_congr hlink]
      rfl
  | _ => rfl

/-- A statement of one thread is no concern of the others. -/
theorem Move.frame (hmove : Move s t j rest s') :
    (∀ u, u ≠ t → s'.todo u = s.todo u ∧ s'.pc u = s.pc u) ∧ s'.map.nextAddr = s.map.nextAddr ∧
      ∀ pc : Pc, pc.left s'.map = pc.left s.map := by
  have hgoto (pc : Pc) : ∀ u, u ≠ t → (s.goto t pc).todo u = s.todo u ∧
      (s.goto t pc).pc u = s.pc u :=
    fun u hu => ⟨rfl, update_of_ne hu ..⟩
  cases hmove with
  | lock _ _ => exact ⟨fun u hu => ⟨rfl, update_of_ne hu ..⟩, rfl, fun _ => rfl⟩
  | head _ | miss _ | hit _ _ _ _ | next _ _ _ | load _ _ => exact ⟨hgoto _, rfl, fun _ => rfl⟩
  | write _ hget =>
      exact ⟨fun u hu => ⟨rfl, update_of_ne hu ..⟩, rfl, left_store_value hget _⟩
  | leave _ =>
      exact ⟨fun u hu => ⟨update_of_ne hu .., update_of_ne hu ..⟩,
        rfl, fun _ => rfl⟩

/-- Within a call, every statement leaves fewer to come. -/
theorem Inv.left_lt (h : Inv nodes target keys s) (htodo : s.todo t = j :: rest)
    (hmove : Move s t j rest s') (hcall : s'.todo t = j :: rest) :
    (s'.pc t).left s.map < (s.pc t).left s.map := by
  cases hmove with
  | lock hpc _ => simp [Pool.lock, hpc, Pc.left]
  | head hpc =>
      have hchain := h.wf.chain _ (h.wf.idx_lt j.key)
      have hlt := h.wf.chain_length_lt hchain
      simp only [BogusCmap.fuel] at hlt
      simp only [Pool.goto, update_self, hpc, Pc.left,
        addresses_of_chain hchain (h.wf.chain_length_lt hchain)]
      omega
  | miss hpc | load hpc _ => simp [Pool.goto, hpc, Pc.left]
  | @hit a e hpc hget _ _ =>
      simp [Pool.goto, hpc, Pc.left, addresses, BogusCmap.fuel, hget]
  | @next a e hpc hget _ =>
      have hat := (h.current htodo (by simp [hpc])).2
      rw [hpc] at hat
      obtain ⟨l, hchain, -⟩ := hat
      have hlt := h.wf.chain_length_lt hchain
      have hlen : (addresses Entry.next s.map.heap s.map.fuel (some a)).length = l.length := by
        rw [addresses_of_chain hchain hlt]
      cases hchain with
      | cons hget' htail =>
          rw [hget] at hget'
          cases hget'
          simp only [Pool.goto, update_self, hpc, Pc.left, hlen,
            addresses_of_chain htail (h.wf.chain_length_lt htail), List.length_cons]
          omega
  | write hpc _ => simp [Pool.store, hpc, Pc.left]
  | leave _ =>
      simp only [Pool.unlock, update_self] at hcall
      exact absurd (congrArg List.length hcall) (by simp)

/-- With each step the thread has less work left. -/
theorem Inv.work_lt (h : Inv nodes target keys s) (htodo : s.todo t = j :: rest)
    (hmove : Move s t j rest s') : work s' t < work s t := by
  have hframe := hmove.frame
  have hleft := h.left_lt htodo hmove
  by_cases hcall : s'.todo t = j :: rest
  · simp only [work, hcall, htodo, hframe.2.1, hframe.2.2]
    exact Nat.add_lt_add_left (hleft hcall) _
  · cases hmove with
    | leave hpc =>
        cases rest with
        | nil => simp [work, Pool.unlock, htodo, hpc, Pc.left]
        | cons j' rest =>
            simp only [work, Pool.unlock, update_self, htodo, hpc, Pc.left,
              List.length_cons, Nat.succ_mul]
            omega
    | _ => exact absurd htodo hcall

/-- A sum that changes in one place. -/
theorem sum_add_eq [AddCommMonoid M] {f g : Fin n → M} (t : Fin n) (h : ∀ u, u ≠ t → g u = f u) :
    ∑ u, g u + f t = ∑ u, f u + g t := by
  rw [← Finset.add_sum_erase _ g (Finset.mem_univ t),
    ← Finset.add_sum_erase _ f (Finset.mem_univ t), Finset.sum_congr rfl fun u hu =>
      h u (Finset.ne_of_mem_erase hu)]
  ac_rfl

theorem Inv.sum_work_lt (h : Inv nodes target keys s) (htodo : s.todo t = j :: rest)
    (hmove : Move s t j rest s') : ∑ u, work s' u < ∑ u, work s u := by
  obtain ⟨hother, hnext, hleft⟩ := hmove.frame
  have hsum := sum_add_eq (f := work s) (g := work s') t fun u hu => by
    simp only [work, hother u hu, hnext, hleft]
  have hlt := h.work_lt htodo hmove
  omega

end Linuxyz.Cmap
