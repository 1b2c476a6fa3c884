import Linuxyz.Cmap.LastWrite
import Linuxyz.Cmap.Threads

/-!
# Linuxyz.Cmap.NoLostUpdate

No increment and no decrement is lost.

Each call adds `effect k j` to the value of key `k`, and has not done so as
long as it is pending.  `Balance` says that the value of a key and the effects
still pending add up to the same total in every state; when all threads have
finished nothing is pending, and the value is the total.  The entries the
threads find are the ones the sets before them made (`sets_home`), provided
that `malloc` leaves `NULL` in the array of buckets.
-/

namespace Linuxyz.Cmap

variable {n : Nat} {s s' : Pool n} {t u : Fin n} {j : Job} {rest : List Job}
variable {m : BogusCmap} {nodes : Nat → List Addr} {target : UInt64 → Addr} {keys : List UInt64}

/-! ## accounting -/

/-- What a call adds to the value of a key. -/
def effect (k : UInt64) (j : Job) : UInt64 :=
  if j.key = k then
    match j.op with
    | .inc => k
    | .dec => -k
  else 0

def effects (k : UInt64) (jobs : List Job) : UInt64 := (jobs.map (effect k)).sum

/-- The calls whose store is still to come. -/
def pending (s : Pool n) (t : Fin n) : List Job :=
  if s.pc t = .leave then (s.todo t).tail else s.todo t

/-- The value of each key and the effects pending add up to its total. -/
def Balance (target : UInt64 → Addr) (keys : List UInt64) (total : UInt64 → UInt64) (s : Pool n) :
    Prop :=
  ∀ k ∈ keys, ∀ e, s.map.heap (target k) = some e → e.value + ∑ t, effects k (pending s t) = total k

theorem cb_value (j : Job) (hindex : e.index = j.key) :
    (j.op.cb e).value = e.value + effect j.key j := by
  unfold effect
  cases hop : j.op with
  | inc => simp [Op.cb, incFunc, hindex]
  | dec => simp [Op.cb, decFunc, hindex, sub_eq_add_neg]

/-- Only the store changes what is pending, and only by its own call. -/
theorem Move.pending (hmove : Move s t j rest s') (htodo : s.todo t = j :: rest) :
    (s'.map = s.map ∧ ∀ u, pending s' u = pending s u) ∨
      ∃ a v e, s.pc t = .write a v ∧ s.map.heap a = some e ∧
        s' = s.store t a { e with value := v } := by
  have hgoto {pc : Pc} (hpc : s.pc t ≠ .leave) (hpc' : pc ≠ .leave) :
      ∀ u, Cmap.pending (s.goto t pc) u = Cmap.pending s u := by
    intro u
    by_cases hut : u = t
    · simp [Cmap.pending, Pool.goto, hut, hpc, hpc']
    · simp [Cmap.pending, Pool.goto, hut]
  cases hmove with
  | lock hpc _ =>
      refine .inl ⟨rfl, fun u => ?_⟩
      by_cases hut : u = t
      · simp [Cmap.pending, Pool.lock, hut, hpc]
      · simp [Cmap.pending, Pool.lock, hut]
  | head hpc | miss hpc | hit hpc _ _ _ | next hpc _ _ | load hpc _ =>
      exact .inl ⟨rfl, hgoto (by simp [hpc]) (by simp)⟩
  | write hpc hget => exact .inr ⟨_, _, _, hpc, hget, rfl⟩
  | leave hpc =>
      refine .inl ⟨rfl, fun u => ?_⟩
      by_cases hut : u = t
      · simp [Cmap.pending, Pool.unlock, hut, hpc, htodo]
      · simp [Cmap.pending, Pool.unlock, hut]

/-- After its store a call is no longer pending. -/
theorem sum_effects_store (htodo : s.todo t = j :: rest) (hpc : s.pc t = .write a v) (k : UInt64)
    (e : Entry) :
    ∑ u, effects k (pending s u) = ∑ u, effects k (pending (s.store t a e) u) + effect k j := by
  have hsum := sum_add_eq (f := fun u => effects k (pending s u))
    (g := fun u => effects k (pending (s.store t a e) u)) t
    fun u hu => by simp [pending, Pool.store, hu]
  have hbefore : pending s t = j :: rest := by simp [pending, hpc, htodo]
  have hafter : pending (s.store t a e) t = rest := by simp [pending, Pool.store, htodo]
  simp only [hbefore, hafter, effects, List.map_cons, List.sum_cons] at hsum
  apply add_right_cancel (b := effects k rest)
  rw [add_assoc]
  exact hsum.symm

/-- A store adds its effect to its own key and takes it from what is pending. -/
theorem Balance.of_move (hb : Balance target keys total s) (h : Inv nodes target keys s)
    (htodo : s.todo t = j :: rest) (hmove : Move s t j rest s') : Balance target keys total s' := by
  intro k hk e' hget'
  rcases hmove.pending htodo with ⟨hmap, hsame⟩ | ⟨a, v, e, hpc, hget, rfl⟩
  · simp only [hsame]
    exact hb k hk e' (hmap ▸ hget')
  · have hat := (h.current htodo (by simp [hpc])).2
    rw [hpc] at hat
    obtain ⟨rfl, e₀, he₀, hv⟩ := hat
    rw [hget] at he₀
    cases he₀
    obtain ⟨e₁, he₁, -, hindex⟩ := h.home.get j.key (h.jobs t j (by rw [htodo]; simp))
    rw [hget] at he₁
    cases he₁
    have hsum := sum_effects_store htodo hpc k { e with value := v }
    by_cases hkj : k = j.key
    · subst hkj
      have hold := hb j.key hk e hget
      simp only [Pool.store, BogusCmap.store_self, Option.some.injEq] at hget'
      subst hget'
      rw [← hold, hsum, hv, cb_value j hindex]
      ac_rfl
    · -- the entry of another key is another entry
      obtain ⟨ek, hek, -, hkey⟩ := h.home.get k hk
      have hne : target k ≠ target j.key := by
        intro heq
        rw [heq, hget] at hek
        cases hek
        exact hkj (hkey.symm.trans hindex)
      have hold := hb k hk e' ((s.map.store_of_ne _ hne).symm.trans hget')
      have hzero : effect k j = 0 := if_neg (Ne.symm hkj)
      rw [← hold, hsum, hzero, add_zero]

/-- Nothing is pending when the threads have finished. -/
theorem Balance.value_eq (hb : Balance target keys total s) (hdone : s.Finished) (hk : k ∈ keys)
    (hget : s.map.heap (target k) = some e) : e.value = total k := by
  have hnone : ∀ t, effects k (pending s t) = 0 := by
    intro t
    simp [pending, hdone t, effects]
  have hsum := hb k hk e hget
  simpa [hnone] using hsum

/-! ## counting -/

/-- The effect of a list of calls, by the number of increments and decrements. -/
theorem effects_eq (k : UInt64) (jobs : List Job) :
    effects k jobs =
      (UInt64.ofNat (jobs.count ⟨.inc, k⟩) - UInt64.ofNat (jobs.count ⟨.dec, k⟩)) * k := by
  induction jobs with
  | nil => simp [effects]
  | cons j jobs ih =>
      have hcons : effects k (j :: jobs) = effect k j + effects k jobs := rfl
      rw [hcons, ih]
      obtain ⟨op, key⟩ := j
      by_cases hkey : key = k
      · subst hkey
        cases op with
        | inc =>
            have hdec : (⟨.inc, key⟩ :: jobs).count (⟨.dec, key⟩ : Job) = jobs.count ⟨.dec, key⟩ :=
              List.count_cons_of_ne (by simp)
            rw [hdec, List.count_cons_self, UInt64.ofNat_add]
            simp only [effect, if_true]
            grind
        | dec =>
            have hinc : (⟨.dec, key⟩ :: jobs).count (⟨.inc, key⟩ : Job) = jobs.count ⟨.inc, key⟩ :=
              List.count_cons_of_ne (by simp)
            rw [hinc, List.count_cons_self, UInt64.ofNat_add]
            simp only [effect, if_true]
            grind
      · have hne (op' : Op) : Job.mk op key ≠ ⟨op', k⟩ := by simp [hkey]
        rw [List.count_cons_of_ne (hne _), List.count_cons_of_ne (hne _), effect,
          if_neg hkey, zero_add]

/-- The number of calls the threads make on a key. -/
def callsOf (progs : Fin n → List Job) (op : Op) (k : UInt64) : Nat := ∑ t, (progs t).count ⟨op, k⟩

/-- What all jobs together count for: the key, for each increment and less each
decrement. -/
theorem sum_effects_eq (k : UInt64) (progs : Fin n → List Job) :
    ∑ t, effects k (progs t) =
      (UInt64.ofNat (callsOf progs .inc k) - UInt64.ofNat (callsOf progs .dec k)) * k := by
  unfold callsOf
  induction (Finset.univ : Finset (Fin n)) using Finset.induction_on with
  | empty => simp
  | insert t ts hout ih =>
      rw [Finset.sum_insert hout, Finset.sum_insert hout, Finset.sum_insert hout, ih, effects_eq,
        UInt64.ofNat_add, UInt64.ofNat_add]
      grind

/-! ## the entries the sets make -/

/-- A thread finds the value of its key where `abs` does. -/
theorem Home.abs_eq (hhome : Home m nodes target keys) (h : Wf m nodes) (hk : k ∈ keys)
    (hget : m.heap (target k) = some e) : abs m k = some e.value := by
  obtain ⟨e₀, he₀, hin, hindex⟩ := hhome.get k hk
  rw [hget] at he₀
  cases he₀
  obtain ⟨l₁, l₂, hl⟩ := List.append_of_mem (hhome.mem k hk)
  have hnd : (l₁ ++ target k :: l₂).Nodup := hl ▸ h.nodup (m.idx k)
  have hfirst : ∀ v, (k, v) ∉ pairs m.heap l₁ := by
    intro v hmem
    obtain ⟨a, ha, e', hget', hin', hindex', -⟩ := mem_pairs.mp hmem
    have heq := (hhome.only a e' hget' hin').2
    rw [hindex'] at heq
    exact (List.nodup_middle.mp hnd).notMem (List.mem_append_left _ (heq ▸ ha))
  have hf : First m nodes k l₁ (target k) l₂ e := ⟨hl, hget, hin, hindex, hfirst⟩
  rw [abs, hf.live_eq h, List.lookup_append, lookup_eq_none.mpr hf.first, Option.none_or,
    List.lookup_cons_self]

/-- The entry in use with key `k` is at `a`. -/
def Holds (m : BogusCmap) (nodes : Nat → List Addr) (k : UInt64) (a : Addr) : Prop :=
  a ∈ nodes (m.idx k) ∧ ∃ e, m.heap a = some e ∧ e.inUse ≠ 0 ∧ e.index = k

/-- If every key is in use at most once, it has one entry. -/
theorem Unique.holds_eq (hu : Unique m) (h : Wf m nodes) (ha : Holds m nodes k a)
    (hb : Holds m nodes k b) : a = b := by
  obtain ⟨hmem, e, hget, hin, hindex⟩ := ha
  obtain ⟨hmem', e', hget', hin', hindex'⟩ := hb
  obtain ⟨l₁, l₂, hl⟩ := List.append_of_mem hmem
  have hnd := hu _ (h.idx_lt k)
  rw [h.live_eq (h.idx_lt k), hl, pairs_split hget, pairOf_eq_some_iff.mpr ⟨hin, hindex, rfl⟩,
    Option.toList_some, List.append_assoc, List.singleton_append] at hnd
  have hout := notMem_of_unique hnd e'.value
  rw [List.mem_append, not_or] at hout
  rw [hl, List.mem_append, List.mem_cons] at hmem'
  rcases hmem' with hleft | heq | hright
  · exact absurd (mem_pairs.mpr ⟨b, hleft, e', hget', hin', hindex', rfl⟩) hout.1
  · exact heq.symm
  · exact absurd (mem_pairs.mpr ⟨b, hright, e', hget', hin', hindex', rfl⟩) hout.2

/-- The map has a value for a key exactly if some entry holds it. -/
theorem Wf.abs_ne_none_iff (h : Wf m nodes) : abs m k ≠ none ↔ ∃ a, Holds m nodes k a := by
  rw [abs, Ne, lookup_eq_none, not_forall]
  simp only [Classical.not_not, h.live_eq (h.idx_lt k)]
  constructor
  · rintro ⟨v, hv⟩
    obtain ⟨a, ha, e, hget, hin, hindex, -⟩ := mem_pairs.mp hv
    exact ⟨a, ha, e, hget, hin, hindex⟩
  · rintro ⟨a, ha, e, hget, hin, hindex⟩
    exact ⟨e.value, mem_pairs.mpr ⟨a, ha, e, hget, hin, hindex, rfl⟩⟩

/-- Keys in use once make a home for each of them. -/
theorem exists_home (h : Wf m nodes) (hu : Unique m) (hkeys : ∀ k, k ∈ keys ↔ abs m k ≠ none) :
    ∃ target, Home m nodes target keys := by
  have hchoice : ∀ k, ∃ a, k ∈ keys → Holds m nodes k a := by
    intro k
    by_cases hk : k ∈ keys
    · obtain ⟨a, ha⟩ := h.abs_ne_none_iff.mp ((hkeys k).mp hk)
      exact ⟨a, fun _ => ha⟩
    · exact ⟨0, fun hk' => absurd hk' hk⟩
  choose target htarget using hchoice
  refine ⟨target, fun k hk => (htarget k hk).1, fun k hk => (htarget k hk).2,
    fun a e hget hin => ?_⟩
  obtain ⟨b, hb⟩ := h.owned a e hget
  have hhere : Holds m nodes e.index a := ⟨h.bucket b a e hb hget hin ▸ hb, e, hget, hin, rfl⟩
  have hk : e.index ∈ keys := (hkeys _).mpr (h.abs_ne_none_iff.mpr ⟨a, hhere⟩)
  exact ⟨hk, hu.holds_eq h hhere (htarget _ hk)⟩

/-- A new entry that is in use keeps every free one at 0. -/
theorem Zeroed.push (h : Zeroed m) (i : Nat) (index value : UInt64) :
    Zeroed (m.push i index value 1) := by
  intro x e' hx hfree
  by_cases hnew : x = m.nextAddr
  · subst hnew
    rw [m.push_self] at hx
    cases hx
    exact absurd hfree (by simp)
  · rw [m.push_of_ne _ _ _ _ hnew] at hx
    exact h x e' hx hfree

/-- A set of a new key. -/
theorem Good.set {stray : Stray} {s : Shared} (h : Good s) (hzero : Zeroed s.map)
    (hk : abs s.map k = none) (v : UInt64) :
    ∃ s', (lockedSystem stray).step s (.set k v) = some s' ∧ Good s' ∧ Zeroed s'.map ∧
      abs s'.map = Function.update (abs s.map) k (some v) := by
  have hstep : ∃ s', (lockedSystem stray).step s (.set k v) = some s' ∧ _ := h.step hk trivial
  obtain ⟨s', hs', hgood, hmap⟩ := hstep
  obtain ⟨nodes, hwf⟩ := h.wf
  obtain ⟨m', r, hcall, ho⟩ := hwf.call_cases (.set k v)
  have hlocked : lockedCall stray s (.set k v) = some (_, r) :=
    lockedCall_eq h.free hcall (ho.ret_of_fine hk)
  obtain rfl := Option.some.inj (hs'.symm.trans (congrArg (Option.map Prod.fst) hlocked))
  refine ⟨_, hs', hgood, ?_, hmap⟩
  cases ho with
  | fill _ _ _ => exact hzero.store _ (by simp)
  | grow _ => exact hzero.push _ k v

/-- The calls that store each pair of a list. -/
def setAll (kvs : List (UInt64 × UInt64)) : List Call := kvs.map fun kv => .set kv.1 kv.2

/-- Distinct new keys are all stored, one entry each. -/
theorem Good.setAll {stray : Stray} {s : Shared} {kvs : List (UInt64 × UInt64)} (h : Good s)
    (hzero : Zeroed s.map) (hnd : (kvs.map Prod.fst).Nodup)
    (hnew : ∀ k ∈ kvs.map Prod.fst, abs s.map k = none) :
    ∃ s', (lockedSystem stray).run s (Cmap.setAll kvs) = some s' ∧ Good s' ∧ Zeroed s'.map ∧
      (∀ kv ∈ kvs, abs s'.map kv.1 = some kv.2) ∧
      ∀ k, k ∉ kvs.map Prod.fst → abs s'.map k = abs s.map k := by
  induction kvs generalizing s with
  | nil => exact ⟨s, rfl, h, hzero, fun kv hkv => absurd hkv (by simp), fun _ _ => rfl⟩
  | cons kv kvs ih =>
      rw [List.map_cons, List.nodup_cons] at hnd
      have hset₁ : ∃ s₁, (lockedSystem stray).step s (.set kv.1 kv.2) = some s₁ ∧ _ :=
        h.set hzero (hnew kv.1 (by simp)) kv.2
      obtain ⟨s₁, hs₁, hgood, hzero₁, habs⟩ := hset₁
      have hother : ∀ k, k ≠ kv.1 → abs s₁.map k = abs s.map k := by
        intro k hk
        rw [habs, Function.update_of_ne hk]
      have hnew₁ : ∀ k ∈ kvs.map Prod.fst, abs s₁.map k = none := by
        intro k hk
        rw [hother k (ne_of_mem_of_not_mem hk hnd.1)]
        exact hnew k (List.mem_cons_of_mem _ hk)
      obtain ⟨s', hrun, hgood', hzero', hset, hkeep⟩ := ih hgood hzero₁ hnd.2 hnew₁
      refine ⟨s', ?_, hgood', hzero', ?_, ?_⟩
      · rw [Cmap.setAll, List.map_cons, System.run_cons, hs₁, Option.bind_some]
        exact hrun
      · intro kv' hkv'
        rcases List.mem_cons.mp hkv' with rfl | hmem
        · rw [hkeep _ hnd.1, habs, Function.update_self]
        · exact hset kv' hmem
      · intro k hk
        rw [List.map_cons, List.mem_cons, not_or] at hk
        rw [hkeep k hk.2, hother k hk.1]

/-! ## the check at the end of main -/

/-- The loop over the buckets that looks for a value other than 0. -/
def checkBuckets (m : BogusCmap) : List Nat → Option Int
  | [] => some 0
  | i :: is =>
      (walk Entry.next m.heap (fun e => e.value != 0) m.fuel (m.buck i)).bind fun
        | some _ => some (-1)
        | none => checkBuckets m is

/-- What `main` returns after its threads have ended. -/
def mainCheck (m : BogusCmap) : Option Int := checkBuckets m (List.range m.buckSize)

/-- Where every value is zero the check at the end of the test counts no error. -/
theorem checkBuckets_eq (h : Wf m nodes) (hvalue : ∀ a e, m.heap a = some e → e.value = 0)
    {is : List Nat} (his : ∀ i ∈ is, i < m.buckSize) : checkBuckets m is = some 0 := by
  induction is with
  | nil => rfl
  | cons i is ih =>
      have hchain := h.chain i (his i (by simp))
      rw [checkBuckets]
      rcases walk_cases hchain (fun e => e.value != 0) (h.chain_length_lt hchain) with
        ⟨_, a, _, e, _, hget, hstop, _⟩ | ⟨_, hwalk⟩
      · rw [hvalue a e hget] at hstop
        cases hstop
      · rw [hwalk, Option.bind_some]
        exact ih fun j hj => his j (by simp [hj])

/-! ## the theorem -/

/-- What holds whenever the threads have been started on the keys `kvs`. -/
structure Sound (kvs : List (UInt64 × UInt64)) (progs : Fin n → List Job) (s : Pool n) : Prop where
  /-- Every call finds its key. -/
  found : ∀ t, s.pc t ≠ .lost
  /-- A thread that has not ended goes on, or waits for a thread that can. -/
  progress : ∀ t j rest, s.todo t = j :: rest →
    (getStep s t).isSome ∨ ∃ u, s.owner (s.map.idx j.key) = some u ∧ (getStep s u).isSome
  /-- In the end each key has the value its calls give it. -/
  value : s.Finished → ∀ kv ∈ kvs, abs s.map kv.1 =
    some (kv.2 + (UInt64.ofNat (callsOf progs .inc kv.1) - UInt64.ofNat (callsOf progs .dec kv.1)) *
      kv.1)
  /-- An entry that is not in use has value 0. -/
  unused : ∀ a e, s.map.heap a = some e → e.inUse = 0 → e.value = 0
  /-- With values 0 and as many increments as decrements, the check succeeds. -/
  check : s.Finished → (∀ kv ∈ kvs, kv.2 = 0 ∧ callsOf progs .inc kv.1 = callsOf progs .dec kv.1) →
    mainCheck s.map = some 0

/-- The invariants give what the threads are to keep. -/
theorem Sound.of_inv {progs : Fin n → List Job} (h : Inv nodes target (kvs.map Prod.fst) s)
    (hb : Balance target (kvs.map Prod.fst) total s)
    (htotal : ∀ kv ∈ kvs, total kv.1 = kv.2 + ∑ t, effects kv.1 (progs t)) : Sound kvs progs s where
  found := by
    intro t hlost
    obtain ⟨j, rest, -, -, hat⟩ := h.running t (by simp [hlost])
    rw [hlost] at hat
    exact hat
  progress := fun _ _ _ => h.waits
  value := by
    intro hdone kv hkv
    have hk : kv.1 ∈ kvs.map Prod.fst := List.mem_map_of_mem hkv
    obtain ⟨e, hget, -⟩ := h.home.get kv.1 hk
    rw [h.home.abs_eq h.wf hk hget, hb.value_eq hdone hk hget, htotal kv hkv, sum_effects_eq]
  unused := h.zero
  check := by
    intro hdone heven
    refine checkBuckets_eq h.wf (fun a e hget => ?_) fun i hi => List.mem_range.mp hi
    by_cases hin : e.inUse = 0
    · exact h.zero a e hget hin
    · obtain ⟨hk, ha⟩ := h.home.only a e hget hin
      rw [ha] at hget
      obtain ⟨kv, hkv, hkey⟩ := List.mem_map.mp hk
      obtain ⟨hzero, hcount⟩ := heven kv hkv
      rw [hb.value_eq hdone hk hget, ← hkey, htotal kv hkv, sum_effects_eq, hzero, hcount, sub_self,
        zero_mul, add_zero]

/-- The value of a key before the threads start, and all their effects on it. -/
def totalOf (m : BogusCmap) (progs : Fin n → List Job) (k : UInt64) : UInt64 :=
  (abs m k).getD 0 + ∑ t, effects k (progs t)

theorem balance_start {progs : Fin n → List Job} (hwf : Wf m nodes)
    (hhome : Home m nodes target keys) :
    Balance target keys (totalOf m progs) (Pool.start m progs) := by
  intro k hk e hget
  have hpending : ∀ t, pending (Pool.start m progs) t = progs t :=
    fun t => by simp [pending, Pool.start]
  simp only [hpending, totalOf, hhome.abs_eq hwf hk hget, Option.getD_some]

/-- Each key of the sets has a home with its value. -/
theorem sets_home (stray : Stray) (hpos : 0 < buckSize) (dataSize : Nat)
    (hfresh : ∀ b < buckSize, fresh b = none) (hkeys : (kvs.map Prod.fst).Nodup) :
    ∃ s₀ nodes target,
      (lockedSystem stray).run (newMap buckSize dataSize fresh) (setAll kvs) = some s₀ ∧
      s₀.held = (fun _ => false) ∧ Wf s₀.map nodes ∧ Home s₀.map nodes target (kvs.map Prod.fst) ∧
      Zeroed s₀.map ∧ ∀ kv ∈ kvs, abs s₀.map kv.1 = some kv.2 := by
  have hblank := (blank_cmapAlloc hpos dataSize hfresh).1
  have hnone : ∀ k, abs (newMap buckSize dataSize fresh).map k = none := by
    intro k
    obtain ⟨nodes, hwf⟩ := hblank.wf
    rw [abs, newMap, hblank.live_eq_nil (hwf.idx_lt k)]
    rfl
  have hsets : ∃ s₀,
      (lockedSystem stray).run (newMap buckSize dataSize fresh) (setAll kvs) = some s₀ ∧ _ :=
    (good_newMap hpos dataSize hfresh).setAll (fun a e hget _ => hblank.value a e hget) hkeys
      fun k _ => hnone k
  obtain ⟨s₀, hrun, hgood, hzero, hset, hother⟩ := hsets
  obtain ⟨nodes, hwf⟩ := hgood.wf
  have hmem : ∀ k, k ∈ kvs.map Prod.fst ↔ abs s₀.map k ≠ none := by
    intro k
    constructor
    · intro hk
      obtain ⟨kv, hkv, rfl⟩ := List.mem_map.mp hk
      rw [hset kv hkv]
      simp
    · intro hk
      by_contra hout
      exact hk ((hother k hout).trans (hnone k))
  obtain ⟨target, hhome⟩ := exists_home hwf hgood.unique hmem
  exact ⟨s₀, nodes, target, hrun, hgood.free, hwf, hhome, hzero, hset⟩

/-- Where `malloc` leaves `NULL` in the array of buckets: `cmap_set` stores any
distinct keys, and however threads with calls on those keys are interleaved,
every run of them ends, no call misses its key, and the values in the end are
those of the calls. -/
theorem no_lost_update (stray : Stray) (buckSize dataSize : Nat) (fresh : Nat → Option Addr)
    (hpos : 0 < buckSize) (hfresh : ∀ b < buckSize, fresh b = none)
    (kvs : List (UInt64 × UInt64)) (hkeys : (kvs.map Prod.fst).Nodup)
    (progs : Fin n → List Job) (hprogs : ∀ t, ∀ j ∈ progs t, j.key ∈ kvs.map Prod.fst) :
    ∃ s₀, (lockedSystem stray).run (newMap buckSize dataSize fresh) (setAll kvs) = some s₀ ∧
      s₀.held = (fun _ => false) ∧
      (∃ bound, ∀ acts s, (poolSystem s₀.map progs).run (.start s₀.map progs) acts = some s →
        acts.length ≤ bound) ∧
      ∀ s, (poolSystem s₀.map progs).Reachable s → Sound kvs progs s := by
  obtain ⟨s₀, nodes, target, hrun, hheld, hwf, hhome, hzero, hset⟩ :=
    sets_home stray hpos dataSize hfresh hkeys
  have hstart : Inv nodes target (kvs.map Prod.fst) (Pool.start s₀.map progs) :=
    inv_start hwf hhome hzero hprogs
  refine ⟨s₀, hrun, hheld, ⟨∑ t, work (Pool.start s₀.map progs) t, fun acts s hrun => ?_⟩,
    fun s hs => ?_⟩
  · refine System.length_le_of_run (f := fun s => ∑ t, work s t) (fun s t s' h hs => ?_) hstart hrun
    obtain ⟨j, rest, htodo, hmove⟩ := getStep_cases hs
    exact ⟨h.of_move htodo hmove, h.sum_work_lt htodo hmove⟩
  · have htotal : ∀ kv ∈ kvs, totalOf s₀.map progs kv.1 = kv.2 + ∑ t, effects kv.1 (progs t) :=
      fun kv hkv => by rw [totalOf, hset kv hkv, Option.getD_some]
    have hinv := hs.invariant
      (P := fun s => Inv nodes target (kvs.map Prod.fst) s ∧
        Balance target (kvs.map Prod.fst) (totalOf s₀.map progs) s) ?_ ?_
    · exact Sound.of_inv hinv.1 hinv.2 htotal
    · rintro s rfl
      exact ⟨hstart, balance_start hwf hhome⟩
    · rintro s t s' ⟨h, hb⟩ hs
      obtain ⟨j, rest, htodo, hmove⟩ := getStep_cases hs
      exact ⟨h.of_move htodo hmove, hb.of_move h htodo hmove⟩

/-- The threads of `main`, in the order it creates them. -/
def mainThreads (totalThreadCount totalValCount : Nat) (t : Fin (2 * totalThreadCount)) :
    List Job :=
  if t.val % 2 = 0 then increaseThread totalValCount else decreaseThread totalValCount

/-- One thread of each kind and two keys in one bucket. -/
theorem no_lost_update_main_threads :
    ∃ s₀, (lockedSystem some).run (newMap 1 1 fun _ => none) (setAll [(0, 0), (1, 0)]) = some s₀ ∧
      s₀.held = (fun _ => false) ∧
      (∃ bound, ∀ acts s,
        (poolSystem s₀.map (mainThreads 1 2)).run (.start s₀.map (mainThreads 1 2)) acts = some s →
        acts.length ≤ bound) ∧
      ∀ s, (poolSystem s₀.map (mainThreads 1 2)).Reachable s → Sound [(0, 0), (1, 0)]
      (mainThreads 1 2) s :=
  no_lost_update some 1 1 (fun _ => none) (by decide) (fun _ _ => rfl) [(0, 0), (1, 0)] (by decide)
    (mainThreads 1 2) (by decide)

/-- A bucket pointer that `malloc` left other than `NULL` ends the list of its
bucket in no entry, and the second set of a key faults. -/
theorem set_faults_of_garbage :
    (lockedSystem some).run (newMap 1 1 fun _ => some 99) (setAll [(1, 0), (2, 0)]) = none := rfl

end Linuxyz.Cmap
