import Linuxyz.Cmap.Frame

/-!
# Linuxyz.Cmap.LastWrite

The map as a finite partial map from keys to values.

`abs m` takes the first pair with a key, which is what `cmap_get` passes to its
callback.  `cmap_set` never looks whether the key is there already, so it can
leave the old pair in front of the new one, and a `cmap_get` or `cmap_del` that
finds nothing unlocks `buck[-1]`: it writes in front of the array and keeps the
mutex of the bucket.  Where no call sets a key that is there, and none misses,
the calls are those of a partial map (`FrameLaw.mapStep`).
-/

namespace Linuxyz.Cmap

open Function (update update_self update_of_ne)

variable {m m' : BogusCmap} {nodes : Nat → List Addr} {c : Call} {r : Reply}

/-! ## the partial map -/

/-- The value of the first entry in use with a key. -/
def abs (m : BogusCmap) (key : UInt64) : Option UInt64 := (live m (m.idx key)).lookup key

/-- A callback that leaves the value and the flag of its entry alone. -/
def Callback.Leaves (cb : Callback) : Prop := ∀ e, (cb e).value = e.value ∧ (cb e).inUse = e.inUse

/-- What the calls do to a partial map. -/
def MapStep (f f' : UInt64 → Option UInt64) : Call → Prop
  | .set key value => f' = update f key (some value)
  | .del key => f' = update f key none
  | .get _ none => f' = f
  | .get key (some cb) =>
      (∀ k, k ≠ key → f' k = f k) ∧ (f key = none → f' key = none) ∧ (cb.Leaves → f' key = f key)

/-- Each key is in use at most once. -/
def Unique (m : BogusCmap) : Prop := ∀ b < m.buckSize, ((live m b).map Prod.fst).Nodup

/-- A key is not found exactly if no pair has it. -/
theorem lookup_eq_none {l : List (UInt64 × UInt64)} : l.lookup key = none ↔ ∀ v, (key, v) ∉ l := by
  rw [List.lookup_eq_none_iff]
  constructor
  · intro h v hmem
    simpa using h _ hmem
  · rintro h ⟨k, v⟩ hmem
    rw [bne_iff_ne]
    rintro rfl
    exact h v hmem

/-- Pairs with another key do not matter. -/
theorem lookup_middle {l₁ l₂ p : List (UInt64 × UInt64)} (h : ∀ v, (k, v) ∉ p) :
    (l₁ ++ p ++ l₂).lookup k = (l₁ ++ l₂).lookup k := by
  simp only [List.lookup_append, lookup_eq_none.mpr h, Option.or_none]

/-! ## one call -/

/-- The call replaces `p`, the only pair with the key if there is one, by `p'`. -/
structure Replaces (m m' : BogusCmap) (key : UInt64) (l₁ : List (UInt64 × UInt64))
    (p p' : Option (UInt64 × UInt64)) (l₂ : List (UInt64 × UInt64)) : Prop where
  size : m'.buckSize = m.buckSize
  old : live m (m.idx key) = l₁ ++ p.toList ++ l₂
  new : live m' (m.idx key) = l₁ ++ p'.toList ++ l₂
  elsewhere : Elsewhere m m' (m.idx key)
  keyOld : ∀ q ∈ p, q.1 = key
  keyNew : ∀ q ∈ p', q.1 = key
  rest : ∀ v, (key, v) ∉ l₁ ++ l₂

section Replaces

variable {key : UInt64} {l₁ l₂ : List (UInt64 × UInt64)} {p p' : Option (UInt64 × UInt64)}

theorem lookup_toList (hp : ∀ q ∈ p, q.1 = key) : p.toList.lookup key = p.map Prod.snd := by
  cases p with
  | none => rfl
  | some q =>
      obtain ⟨k, v⟩ := q
      have hk : k = key := hp (k, v) rfl
      rw [hk, Option.toList_some, List.lookup_cons_self, Option.map_some]

theorem notMem_toList (hp : ∀ q ∈ p, q.1 = key) (hk : k ≠ key)
    (v : UInt64) : (k, v) ∉ p.toList := by
  intro hmem
  exact hk (hp _ (Option.mem_toList.mp hmem))

theorem lookup_replaced (hp : ∀ q ∈ p, q.1 = key) (hrest : ∀ v, (key, v) ∉ l₁ ++ l₂) :
    (l₁ ++ p.toList ++ l₂).lookup key = p.map Prod.snd := by
  have h₁ : l₁.lookup key = none :=
    lookup_eq_none.mpr fun v hv => hrest v (List.mem_append_left _ hv)
  have h₂ : l₂.lookup key = none :=
    lookup_eq_none.mpr fun v hv => hrest v (List.mem_append_right _ hv)
  rw [List.lookup_append, List.lookup_append, h₁, h₂, Option.none_or, Option.or_none,
    lookup_toList hp]

theorem Replaces.abs_old (h : Replaces m m' key l₁ p p' l₂) : abs m key = p.map Prod.snd := by
  rw [abs, h.old, lookup_replaced h.keyOld h.rest]

/-- Only the value of the key changes. -/
theorem Replaces.abs_new (h : Replaces m m' key l₁ p p' l₂) (hpos : 0 < m.buckSize) :
    abs m' = update (abs m) key (p'.map Prod.snd) := by
  funext k
  have hidx : m'.idx k = m.idx k := by rw [BogusCmap.idx, BogusCmap.idx, h.size]
  by_cases hk : k = key
  · subst hk
    rw [update_self, abs, hidx, h.new, lookup_replaced h.keyNew h.rest]
  · rw [update_of_ne hk, abs, abs, hidx]
    by_cases hb : m.idx k = m.idx key
    · rw [hb, h.new, h.old, lookup_middle (notMem_toList h.keyNew hk),
        lookup_middle (notMem_toList h.keyOld hk)]
    · rw [h.elsewhere _ (m.idx_lt hpos k) hb]

/-- If every key is in use at most once, this is so after the change. -/
theorem Replaces.unique (h : Replaces m m' key l₁ p p' l₂) (hu : Unique m) : Unique m' := by
  intro b hb
  rw [h.size] at hb
  by_cases hbk : b = m.idx key
  · subst hbk
    have hnd := hu _ hb
    have hsub : (l₁ ++ l₂).Sublist (l₁ ++ p.toList ++ l₂) :=
      (List.sublist_append_left _ _).append (List.Sublist.refl _)
    rw [h.old] at hnd
    rw [h.new]
    replace hnd := (hsub.map Prod.fst).nodup hnd
    cases p' with
    | none => simpa using hnd
    | some q =>
        have hq : q.1 = key := h.keyNew q rfl
        have hout : key ∉ (l₁ ++ l₂).map Prod.fst := by
          rintro hmem
          obtain ⟨⟨k, v⟩, hkv, rfl⟩ := List.mem_map.mp hmem
          exact h.rest v hkv
        rw [Option.toList_some, List.append_assoc, List.singleton_append, List.map_append,
          List.map_cons, hq, List.nodup_middle, List.nodup_cons, ← List.map_append]
        exact ⟨hout, hnd⟩
  · rw [h.elsewhere b hb hbk]
    exact hu b hb

end Replaces

theorem notMem_of_unique {l₁ l₂ : List (UInt64 × UInt64)}
    (hnd : ((l₁ ++ (key, v) :: l₂).map Prod.fst).Nodup) (w : UInt64) : (key, w) ∉ l₁ ++ l₂ := by
  rw [List.map_append, List.map_cons, List.nodup_middle, List.nodup_cons, ← List.map_append] at hnd
  exact fun hmem => hnd.1 (List.mem_map.mpr ⟨_, hmem, rfl⟩)

/-- What a callback makes of an entry has the entry's key. -/
theorem pairOf_of_keeps (hcb : Callback.Keeps cb) (he : pairOf e = some (key, v)) :
    ∀ q ∈ pairOf (cb e), q.1 = key := by
  rintro ⟨k, w⟩ hq
  obtain ⟨-, hkey, -⟩ := pairOf_eq_some_iff.mp he
  obtain ⟨-, hk, -⟩ := pairOf_eq_some_iff.mp hq
  rw [← hk, (hcb e).1, hkey]

theorem pairOf_of_leaves (hcb : Callback.Keeps cb) (hleaves : cb.Leaves)
    (he : pairOf e = some (key, v)) : pairOf (cb e) = some (key, v) := by
  rw [pairOf_eq_some_iff] at he ⊢
  rw [(hcb e).1, (hleaves e).1, (hleaves e).2]
  exact he

/-- A call that does not set a key that is in use is a step of the partial map
and keeps the keys unique. -/
theorem FrameLaw.mapStep (hlaw : FrameLaw m m' c r) (hpos : 0 < m.buckSize)
    (hsize : m'.buckSize = m.buckSize) (hu : Unique m) (hc : c.Keeps)
    (hfresh : ∀ key value, c = .set key value → abs m key = none) :
    MapStep (abs m) (abs m') c ∧ Unique m' := by
  cases hlaw with
  | @set key l₁ l₂ value hold hnew helse _ =>
      have hnone := hfresh key value rfl
      rw [abs, hold] at hnone
      have hrep : Replaces m m' key l₁ none (some (key, value)) l₂ :=
        ⟨hsize, by simpa using hold, by simpa using hnew, helse, by simp, by simp,
          lookup_eq_none.mp hnone⟩
      exact ⟨hrep.abs_new hpos, hrep.unique hu⟩
  | @visit key l₁ v l₂ e cb hold _ hpair hnew helse _ =>
      have hnd := hu _ (m.idx_lt hpos key)
      rw [hold] at hnd
      have hrep : Replaces m m' key l₁ (some (key, v)) (pairOf (cb e)) l₂ :=
        ⟨hsize, by simpa using hold, hnew, helse, by simp, pairOf_of_keeps hc hpair,
          notMem_of_unique hnd⟩
      have habs := hrep.abs_new hpos
      refine ⟨⟨fun k hk => ?_, fun hnone => ?_, fun hleaves => ?_⟩, hrep.unique hu⟩
      · rw [habs, update_of_ne hk]
      · rw [hrep.abs_old] at hnone
        cases hnone
      · rw [habs, update_self, hrep.abs_old, pairOf_of_leaves hc hleaves hpair]
  | look _ hm => exact ⟨congrArg abs hm, hm ▸ hu⟩
  | @getMiss key cb hnone hm =>
      subst hm
      cases cb with
      | none => exact ⟨rfl, hu⟩
      | some cb => exact ⟨⟨fun _ _ => rfl, id, fun _ => rfl⟩, hu⟩
  | @del key l₁ v l₂ hold _ hnew helse _ =>
      have hnd := hu _ (m.idx_lt hpos key)
      rw [hold] at hnd
      have hrep : Replaces m m' key l₁ (some (key, v)) none l₂ :=
        ⟨hsize, by simpa using hold, by simpa using hnew, helse, by simp, by simp,
          notMem_of_unique hnd⟩
      exact ⟨hrep.abs_new hpos, hrep.unique hu⟩
  | @delMiss key hnone hm =>
      subst hm
      have hkey : abs m' key = none := lookup_eq_none.mpr hnone
      refine ⟨?_, hu⟩
      rw [MapStep, ← hkey, Function.update_eq_self]

/-- `cmap_get` passes the first entry in use with the key to its callback. -/
theorem Outcome.get_hit (ho : Outcome m nodes (.get key (some cb)) m' r) (h : Wf m nodes)
    (habs : abs m key = some v) : ∃ e, r = ⟨m.idx key, some e⟩ ∧ e.index = key ∧ e.value = v := by
  cases ho with
  | @visit _ l₁ a l₂ e _ hf =>
      rw [abs, hf.live_eq h, List.lookup_append, lookup_eq_none.mpr hf.first, Option.none_or,
        List.lookup_cons_self] at habs
      exact ⟨e, rfl, hf.index, Option.some.inj habs⟩
  | getMiss hnone =>
      rw [abs, lookup_eq_none.mpr hnone] at habs
      cases habs

/-- A `cmap_get` of a key that is not in use leaves the map as it is. -/
theorem Outcome.get_miss (ho : Outcome m nodes (.get key cb) m' r) (h : Wf m nodes)
    (habs : abs m key = none) : m' = m ∧ r = ⟨-1, none⟩ := by
  have hmiss {l₁ a l₂ e} (hf : First m nodes key l₁ a l₂ e) : False :=
    lookup_eq_none.mp habs e.value (by rw [hf.live_eq h]; simp)
  cases ho with
  | visit hf => exact (hmiss hf).elim
  | look hf => exact (hmiss hf).elim
  | getMiss _ => exact ⟨rfl, rfl⟩

/-! ## runs -/

/-- The calls on a new map, with its mutexes. -/
def lockedSystem (stray : Stray) : System Shared Call where
  init s := ∃ buckSize dataSize fresh, 0 < buckSize ∧ s = newMap buckSize dataSize fresh
  step s c := (lockedCall stray s c).map Prod.fst

/-- A key that is set is not in use, and one that is looked up or deleted is: the call
does not miss. -/
def Fine (s : Shared) : Call → Prop
  | .set key _ => abs s.map key = none
  | .get key _ => abs s.map key ≠ none
  | .del key => abs s.map key ≠ none

/-- The call neither sets nor deletes the key, nor changes its entry. -/
def Call.Leaves (key : UInt64) : Call → Prop
  | .set k _ => k ≠ key
  | .del k => k ≠ key
  | .get k (some cb) => k = key → cb.Leaves
  | .get _ none => True

/-- The call does not set the key. -/
def Call.NoSet (key : UInt64) (c : Call) : Prop := ∀ value, c ≠ .set key value

/-- Every `cmap_get` of the key passes an entry with the value.  Where there is no value
it misses, and returns -1 if the unlock of `buck[-1].lock` returns. -/
def Answers (stray : Stray) (s : Shared) (key : UInt64) : Option UInt64 → Prop
  | some v => ∀ cb, ∃ s' e,
      lockedCall stray s (.get key (some cb)) = some (s', ⟨s.map.idx key, some e⟩) ∧
        e.index = key ∧ e.value = v
  | none => ∀ cb, lockedCall stray s (.get key cb) =
      (stray (s.inside s.map (s.map.idx key))).map fun s' => (s', ⟨-1, none⟩)

/-- Lists with each key at most once, and no mutex locked. -/
structure Good (s : Shared) : Prop where
  wf : ∃ nodes, Wf s.map nodes
  unique : Unique s.map
  free : s.held = fun _ => false

/-- A new map is one. -/
theorem good_newMap (hpos : 0 < buckSize) (dataSize : Nat)
    (hfresh : ∀ b < buckSize, fresh b = none) : Good (newMap buckSize dataSize fresh) := by
  have hblank := (blank_cmapAlloc hpos dataSize hfresh).1
  refine ⟨hblank.wf, fun b hb => ?_, rfl⟩
  rw [newMap, hblank.live_eq_nil hb]
  exact List.nodup_nil

/-- A call that does not miss returns the index of its bucket. -/
theorem Outcome.ret_of_fine {s : Shared} (ho : Outcome s.map nodes c m' r) (hfine : Fine s c) :
    r.ret = Int.ofNat (s.map.idx c.key) := by
  cases ho with
  | fill => rfl
  | grow => rfl
  | visit => rfl
  | look => rfl
  | clear => rfl
  | getMiss hnone | delMiss hnone => exact absurd (lookup_eq_none.mpr hnone) hfine

section Locked

variable {stray : Stray} {s : Shared}

/-- A call that returns the index of its bucket leaves no mutex locked. -/
theorem lockedCall_eq (hfree : s.held = fun _ => false) (hcall : call s.map c = some (m, r))
    (hret : r.ret = Int.ofNat (s.map.idx c.key)) :
    lockedCall stray s c = some (⟨m, fun _ => false⟩, r) := by
  have hheld : update (update s.held (s.map.idx c.key) true)
      (s.map.idx c.key) false = fun _ => false := by
    funext b
    simp [hfree]
  rw [lockedCall, hfree, hcall]
  simp only [Bool.false_eq_true, if_false, Option.bind_some, hret, unlock, Shared.inside, hheld,
    Option.map_some]

/-- One call that meets the condition. -/
theorem Good.step (h : Good s) (hfine : Fine s c) (hc : c.Keeps) :
    ∃ s', (lockedSystem stray).step s c = some s' ∧ Good s' ∧
      MapStep (abs s.map) (abs s'.map) c := by
  obtain ⟨nodes, hwf⟩ := h.wf
  obtain ⟨m', r, hcall, ho⟩ := hwf.call_cases c
  obtain ⟨m'', r', nodes', hcall', hlaw, hwf', hsize, -⟩ := hwf.call_law hc
  obtain ⟨rfl, rfl⟩ := Prod.mk.inj (Option.some.inj (hcall.symm.trans hcall'))
  have hfresh : ∀ key value, c = .set key value → abs s.map key = none := by
    rintro key value rfl
    exact hfine
  obtain ⟨hmap, hunique⟩ := hlaw.mapStep hwf.pos hsize h.unique hc hfresh
  have hlocked : lockedCall stray s c = some (_, r) :=
    lockedCall_eq h.free hcall (ho.ret_of_fine hfine)
  exact ⟨_, congrArg (Option.map Prod.fst) hlocked, ⟨⟨nodes', hwf'⟩, hunique, rfl⟩, hmap⟩

/-- What the next `cmap_get` answers. -/
theorem Good.answers (h : Good s) (key : UInt64) : Answers stray s key (abs s.map key) := by
  obtain ⟨nodes, hwf⟩ := h.wf
  cases habs : abs s.map key with
  | some v =>
      intro cb
      obtain ⟨m', r, hcall, ho⟩ := hwf.call_cases (.get key (some cb))
      obtain ⟨e, rfl, hkey, hvalue⟩ := ho.get_hit hwf habs
      exact ⟨_, e, lockedCall_eq h.free hcall rfl, hkey, hvalue⟩
  | none =>
      intro cb
      obtain ⟨m', r, hcall, ho⟩ := hwf.call_cases (.get key cb)
      obtain ⟨rfl, rfl⟩ := ho.get_miss hwf habs
      rw [lockedCall, h.free, Call.key, hcall]
      rfl

end Locked

/-! ## what a partial map keeps -/

/-- A call that leaves a key alone does not change what the map has for it. -/
theorem MapStep.of_leaves (h : MapStep f f' c) (hc : c.Leaves key) : f' key = f key := by
  cases c with
  | set k v | del k => rw [h, update_of_ne (Ne.symm hc)]
  | get k cb =>
      cases cb with
      | none => rw [h]
      | some cb =>
          by_cases hk : k = key
          · subst hk
            exact h.2.2 (hc rfl)
          · exact h.1 key (Ne.symm hk)

/-- Without a `cmap_set` of it, a key that is not in use stays so. -/
theorem MapStep.of_noSet (h : MapStep f f' c) (hc : c.NoSet key) (hnone : f key = none) :
    f' key = none := by
  cases c with
  | set k v =>
      have hk : key ≠ k := fun heq => hc v (by rw [heq])
      rw [h, update_of_ne hk, hnone]
  | del k =>
      rw [h]
      by_cases hk : key = k
      · rw [hk, update_self]
      · rw [update_of_ne hk, hnone]
  | get k cb =>
      cases cb with
      | none => rw [h, hnone]
      | some cb =>
          by_cases hk : key = k
          · subst hk
            exact h.2.1 hnone
          · rw [h.1 key hk, hnone]

section Runs

variable {stray : Stray} {s s' : Shared} {calls before after : List Call} {key : UInt64}
  {P : Call → Prop} {J : Option UInt64 → Prop}

/-- What the calls of a run keep of the value of a key holds at its end. -/
theorem Good.run (key : UInt64) (hkeep : ∀ c f f', P c → MapStep f f' c → J (f key) → J (f' key))
    (h : Good s) (hfine : (lockedSystem stray).Meets Fine s calls)
    (hcalls : ∀ c ∈ calls, c.Keeps ∧ P c) (hJ : J (abs s.map key)) :
    ∃ s', (lockedSystem stray).run s calls = some s' ∧ Good s' ∧ J (abs s'.map key) := by
  refine (hfine.and hcalls).run (I := fun s => Good s ∧ J (abs s.map key)) ?_ ⟨h, hJ⟩
  rintro s c ⟨hgood, hJ⟩ ⟨hfine, hc, hP⟩
  obtain ⟨s', hs', hgood', hmap⟩ := hgood.step hfine hc
  exact ⟨s', hs', hgood', hkeep c _ _ hP hmap hJ⟩

/-- What one call makes true of the value of a key, and the later ones keep. -/
theorem Good.run_after (hkeep : ∀ c f f', P c → MapStep f f' c → J (f key) → J (f' key))
    (hset : ∀ f f', MapStep f f' c → J (f' key)) (h : Good s)
    (hfine : (lockedSystem stray).Meets Fine s (before ++ c :: after))
    (hcalls : ∀ b ∈ before ++ c :: after, b.Keeps) (hafter : ∀ b ∈ after, P b)
    (hrun : (lockedSystem stray).run s (before ++ c :: after) = some s') :
    J (abs s'.map key) := by
  induction before generalizing s with
  | nil =>
      obtain ⟨s₁, hs₁, hgood, hmap⟩ := h.step hfine.1 (hcalls c (by simp))
      obtain ⟨s₂, hs₂, -, hJ⟩ := hgood.run key hkeep (hfine.2 s₁ hs₁)
        (fun b hb => ⟨hcalls b (by simp [hb]), hafter b hb⟩) (hset _ _ hmap)
      rw [List.nil_append, System.run_cons, hs₁, Option.bind_some, hs₂] at hrun
      exact Option.some.inj hrun ▸ hJ
  | cons b before ih =>
      obtain ⟨s₁, hs₁, hgood, -⟩ := h.step hfine.1 (hcalls b (by simp))
      rw [List.cons_append, System.run_cons, hs₁, Option.bind_some] at hrun
      exact ih hgood (hfine.2 s₁ hs₁) (fun c hc => hcalls c (List.mem_cons_of_mem _ hc)) hrun

end Runs

/-- Where `malloc` leaves `NULL` in the array of buckets, no call sets a key that
is in use and none misses, the map is a finite partial map, whatever the unlock of
`buck[-1].lock` would do: the last set of a key gives the value that `cmap_get` passes
on, and after a delete `cmap_get` returns -1, if it returns from that unlock. -/
theorem last_write_wins (stray : Stray) (buckSize dataSize : Nat) (fresh : Nat → Option Addr)
    (hpos : 0 < buckSize) (hfresh : ∀ b < buckSize, fresh b = none) (calls : List Call)
    (hcalls : ∀ c ∈ calls, c.Keeps)
    (hfine : (lockedSystem stray).Meets Fine (newMap buckSize dataSize fresh) calls) :
    ∃ s, (lockedSystem stray).run (newMap buckSize dataSize fresh) calls = some s ∧
      ∀ key,
        (∀ before v after, calls = before ++ .set key v :: after → (∀ c ∈ after, c.Leaves key) →
          Answers stray s key (some v)) ∧
        (∀ before after, calls = before ++ .del key :: after → (∀ c ∈ after, c.NoSet key) →
          Answers stray s key none) := by
  have hgood := good_newMap hpos dataSize hfresh
  obtain ⟨s, hrun, hgood', -⟩ := hgood.run (P := fun _ => True) (J := fun _ => True) 0
    (fun _ _ _ _ _ h => h) hfine (fun c hc => ⟨hcalls c hc, trivial⟩) trivial
  refine ⟨s, hrun, fun key => ⟨?_, ?_⟩⟩
  · rintro before v after rfl hafter
    have habs : abs s.map key = some v :=
      hgood.run_after (J := fun o => o = some v)
        (fun c f f' hc hmap hv => (hmap.of_leaves hc).trans hv)
        (fun f f' hmap => by rw [hmap, update_self]) hfine hcalls hafter hrun
    exact habs ▸ hgood'.answers key
  · rintro before after rfl hafter
    have habs : abs s.map key = none :=
      hgood.run_after (J := fun o => o = none) (fun c f f' hc hmap hv => hmap.of_noSet hc hv)
        (fun f f' hmap => by rw [hmap, update_self]) hfine hcalls hafter hrun
    exact habs ▸ hgood'.answers key

/-- Two keys in one bucket; the second is read back, and the first is deleted. -/
theorem last_write_wins_colliding :
    ∃ s, (lockedSystem fun _ => none).run (newMap 1 1 fun _ => none)
        [.set 1 5, .set 2 7, .get 2 none, .del 1] = some s ∧
      Answers (fun _ => none) s 2 (some 7) ∧ Answers (fun _ => none) s 1 none := by
  have hkeeps : ∀ c ∈ [Call.set 1 5, .set 2 7, .get 2 none, .del 1], c.Keeps := by
    intro c hc
    simp only [List.mem_cons, List.not_mem_nil, or_false] at hc
    rcases hc with rfl | rfl | rfl | rfl <;> trivial
  have hfine : (lockedSystem fun _ => none).Meets Fine (newMap 1 1 fun _ => none)
      [.set 1 5, .set 2 7, .get 2 none, .del 1] := by
    refine ⟨rfl, fun s hs => ?_⟩
    obtain rfl := Option.some.inj hs
    refine ⟨rfl, fun s hs => ?_⟩
    obtain rfl := Option.some.inj hs
    refine ⟨Option.some_ne_none (7 : UInt64), fun s hs => ?_⟩
    obtain rfl := Option.some.inj hs
    exact ⟨Option.some_ne_none (5 : UInt64), fun _ _ => trivial⟩
  obtain ⟨s, hrun, hs⟩ := last_write_wins (fun _ => none) 1 1 (fun _ => none) (by decide)
    (fun _ _ => rfl) _ hkeeps hfine
  refine ⟨s, hrun, (hs 2).1 [.set 1 5] 7 [.get 2 none, .del 1] rfl fun c hc => ?_,
    (hs 1).2 [.set 1 5, .set 2 7, .get 2 none] [] rfl fun c hc => by cases hc⟩
  simp only [List.mem_cons, List.not_mem_nil, or_false] at hc
  rcases hc with rfl | rfl
  · trivial
  · exact (by decide : (1 : UInt64) ≠ 2)

/-- A set of a key that is in use takes the free entry behind the old one, and
`cmap_get` passes on the old value.  Where the unlock of `buck[-1].lock` faults, a
`cmap_get` after a delete does not return; where it changes nothing, the mutex of the
bucket stays locked and the next call on it does not return.  And a bucket whose pointer
`malloc` left not `NULL` faults. -/
theorem last_write_lost :
    (∃ s s' e, (lockedSystem some).run (newMap 1 2 fun _ => none) [.set 1 5, .set 1 7] = some s ∧
      lockedCall some s (.get 1 (some incFunc)) = some (s', ⟨0, some e⟩) ∧ e.value = 5) ∧
    (∃ s, (lockedSystem fun _ => none).run (newMap 1 1 fun _ => none) [.set 1 5, .del 1] = some s ∧
      lockedCall (fun _ => none) s (.get 1 none) = none) ∧
    (∃ s, (lockedSystem some).run (newMap 1 1 fun _ => none) [.set 1 5, .del 1, .get 1 none] =
        some s ∧ lockedCall some s (.get 1 none) = none) ∧
    (∃ s, (lockedSystem some).run (newMap 1 1 fun _ => some 99) [.set 1 5, .del 1] = some s ∧
      lockedCall some s (.get 1 none) = none) :=
  ⟨⟨_, _, _, rfl, rfl, rfl⟩, ⟨_, rfl, rfl⟩, ⟨_, rfl, rfl⟩, ⟨_, rfl, rfl⟩⟩

end Linuxyz.Cmap
