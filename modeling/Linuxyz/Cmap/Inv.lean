import Linuxyz.Cmap.Map

/-!
# Linuxyz.Cmap.Inv

The entries of a map and what each call does to them.

`Wf m nodes` says that the buckets are disjoint `NULL`-terminated lists, given
by `nodes`, that hold every entry there is, and that an entry in use is in the
bucket of its key.  A call changes one entry in place (`store`) or puts a new
one at the head of a bucket (`push`); both keep `Wf`, and `live_store` and
`live_push` say what they do to the keys and values in use.
-/

namespace Linuxyz.Cmap

/-! ## the lists of a map -/

structure Wf (m : BogusCmap) (nodes : Nat → List Addr) : Prop where
  pos : 0 < m.buckSize
  chain : ∀ b, b < m.buckSize → Chain Entry.next m.heap (m.buck b) (nodes b)
  out : ∀ b, m.buckSize ≤ b → nodes b = []
  disjoint : ∀ b b' a, a ∈ nodes b → a ∈ nodes b' → b = b'
  owned : ∀ a e, m.heap a = some e → ∃ b, a ∈ nodes b
  alloc : ∀ b a, a ∈ nodes b → a < m.nextAddr
  bucket : ∀ b a e, a ∈ nodes b → m.heap a = some e → e.inUse ≠ 0 → m.idx e.index = b

/-- The addresses of bucket `b`, in the order of its list. -/
def nodesOf (m : BogusCmap) (b : Nat) : List Addr := addresses Entry.next m.heap m.fuel (m.buck b)

/-- The key and value of an entry in use. -/
def pairOf (e : Entry) : Option (UInt64 × UInt64) :=
  if e.inUse = 0 then none else some (e.index, e.value)

/-- The keys and values in use at some addresses. -/
def pairs (heap : Addr → Option Entry) (l : List Addr) : List (UInt64 × UInt64) :=
  (entries heap l).filterMap pairOf

/-- The keys and values in use in bucket `b`, in the order of its list. -/
def live (m : BogusCmap) (b : Nat) : List (UInt64 × UInt64) := pairs m.heap (nodesOf m b)

variable {m : BogusCmap} {nodes : Nat → List Addr}

theorem BogusCmap.idx_lt (hpos : 0 < m.buckSize) (key : UInt64) : m.idx key < m.buckSize :=
  Nat.mod_lt _ hpos

theorem Wf.idx_lt (h : Wf m nodes) (key : UInt64) : m.idx key < m.buckSize := m.idx_lt h.pos key

theorem Wf.lt_of_mem (h : Wf m nodes) (ha : a ∈ nodes b) : b < m.buckSize := by
  by_contra hge
  rw [h.out b (Nat.le_of_not_lt hge)] at ha
  cases ha

theorem Wf.nodup (h : Wf m nodes) (b : Nat) : (nodes b).Nodup := by
  by_cases hb : b < m.buckSize
  · exact (h.chain b hb).nodup
  · rw [h.out b (Nat.le_of_not_lt hb)]
    exact List.nodup_nil

/-- The fuel is enough for any list of entries. -/
theorem Wf.chain_length_lt (h : Wf m nodes) (hchain : Chain Entry.next m.heap p l) :
    l.length < m.fuel := by
  have hsub : l ⊆ List.range m.nextAddr := by
    intro a ha
    obtain ⟨e, hget⟩ := hchain.isSome ha
    obtain ⟨b, hb⟩ := h.owned a e hget
    exact List.mem_range.mpr (h.alloc b a hb)
  have hle := (hchain.nodup.subperm hsub).length_le
  rw [List.length_range] at hle
  exact Nat.lt_succ_of_le hle

theorem Wf.nodesOf_eq (h : Wf m nodes) (hb : b < m.buckSize) : nodesOf m b = nodes b :=
  addresses_of_chain (h.chain b hb) (h.chain_length_lt (h.chain b hb))

theorem Wf.live_eq (h : Wf m nodes) (hb : b < m.buckSize) : live m b = pairs m.heap (nodes b) := by
  rw [live, h.nodesOf_eq hb]

theorem Wf.heap_nextAddr (h : Wf m nodes) : m.heap m.nextAddr = none := by
  cases hget : m.heap m.nextAddr with
  | none => rfl
  | some e =>
      obtain ⟨b, hb⟩ := h.owned _ e hget
      exact absurd (h.alloc b _ hb) (Nat.lt_irrefl _)

theorem Wf.nextAddr_notMem (h : Wf m nodes) (b : Nat) : m.nextAddr ∉ nodes b := fun hmem =>
  Nat.lt_irrefl _ (h.alloc b _ hmem)

/-! ## keys and values in use -/

theorem pairOf_eq_some_iff {e : Entry} :
    pairOf e = some (k, v) ↔ e.inUse ≠ 0 ∧ e.index = k ∧ e.value = v := by
  unfold pairOf
  split <;> simp_all

/-- A pair is live exactly if some entry of the list has it and is in use. -/
theorem mem_pairs {heap : Addr → Option Entry} {l : List Addr} :
    (k, v) ∈ pairs heap l ↔ ∃ a ∈ l, ∃ e, heap a = some e ∧ e.inUse ≠ 0 ∧ e.index = k ∧
      e.value = v := by
  simp only [pairs, entries, List.mem_filterMap, pairOf_eq_some_iff]
  constructor
  · rintro ⟨e, ⟨a, ha, hget⟩, hpair⟩
    exact ⟨a, ha, e, hget, hpair⟩
  · rintro ⟨a, ha, e, hget, hpair⟩
    exact ⟨e, ⟨a, ha, hget⟩, hpair⟩

theorem pairs_split {heap : Addr → Option Entry} (hget : heap a = some e) :
    pairs heap (l₁ ++ a :: l₂) = pairs heap l₁ ++ (pairOf e).toList ++ pairs heap l₂ := by
  rw [pairs, entries_split hget, List.filterMap_append, List.filterMap_cons, pairs, pairs]
  cases pairOf e with
  | none => simp
  | some kv => simp

/-! ## stores -/

theorem mem_update_cons {i b : Nat} {x a : Addr} :
    a ∈ Function.update nodes i (x :: nodes i) b ↔ (b = i ∧ a = x) ∨ a ∈ nodes b := by
  by_cases hbi : b = i
  · subst hbi
    rw [Function.update_self, List.mem_cons]
    tauto
  · rw [Function.update_of_ne hbi]
    tauto

/-- A store that keeps the link keeps the lists. -/
theorem Wf.store (h : Wf m nodes) (ha : a ∈ nodes b) (hget : m.heap a = some e)
    (hnext : e'.next = e.next) (hbucket : e'.inUse ≠ 0 → m.idx e'.index = b) :
    Wf (m.store a e') nodes where
  pos := h.pos
  chain := by
    intro c hc
    refine (h.chain c hc).congr fun x _ ex hx => ?_
    by_cases hxa : x = a
    · subst hxa
      rw [hget] at hx
      cases hx
      exact ⟨e', m.store_self x e', hnext⟩
    · exact ⟨ex, (m.store_of_ne e' hxa).trans hx, rfl⟩
  out := h.out
  disjoint := h.disjoint
  owned := by
    intro x ex hx
    by_cases hxa : x = a
    · exact ⟨b, hxa ▸ ha⟩
    · exact h.owned x ex ((m.store_of_ne e' hxa).symm.trans hx)
  alloc := h.alloc
  bucket := by
    intro c x ex hx hxget hin
    by_cases hxa : x = a
    · subst hxa
      have heq : ex = e' := Option.some.inj (hxget.symm.trans (m.store_self x e'))
      rw [heq] at hin ⊢
      exact (hbucket hin).trans (h.disjoint _ _ _ ha hx)
    · exact h.bucket c x ex hx ((m.store_of_ne e' hxa).symm.trans hxget) hin

/-- What a store does to the keys and values in use: only those of its entry
change, in place. -/
theorem Wf.live_store (h : Wf m nodes) (hl : nodes b = l₁ ++ a :: l₂)
    (hwf : Wf (m.store a e') nodes) (c : Nat) (hc : c < m.buckSize) :
    live (m.store a e') c =
      if c = b then pairs m.heap l₁ ++ (pairOf e').toList ++ pairs m.heap l₂ else live m c := by
  have hnd : (l₁ ++ a :: l₂).Nodup := hl ▸ h.nodup b
  rw [hwf.live_eq hc]
  by_cases hcb : c = b
  · subst hcb
    have hout := (List.nodup_middle.mp hnd).notMem
    rw [List.mem_append, not_or] at hout
    rw [if_pos rfl, hl, pairs_split (m.store_self a e')]
    simp only [pairs, BogusCmap.store, entries_update_of_notMem hout.1,
      entries_update_of_notMem hout.2]
  · have hout : a ∉ nodes c := fun hmem => hcb (h.disjoint _ _ _ hmem (by rw [hl]; simp))
    rw [if_neg hcb, h.live_eq hc]
    simp only [pairs, BogusCmap.store, entries_update_of_notMem hout]

/-- A new entry at the head of a bucket. -/
theorem Wf.push (h : Wf m nodes) (hi : i < m.buckSize) (index value inUse : UInt64)
    (hbucket : inUse ≠ 0 → m.idx index = i) :
    Wf (m.push i index value inUse) (Function.update nodes i (m.nextAddr :: nodes i)) where
  pos := h.pos
  chain := by
    intro b hb
    have hkeep : Chain Entry.next (m.push i index value inUse).heap (m.buck b) (nodes b) := by
      refine (h.chain b hb).congr fun x hx ex hget => ⟨ex, ?_, rfl⟩
      rw [m.push_of_ne i index value inUse (ne_of_mem_of_not_mem hx (h.nextAddr_notMem b)), hget]
    by_cases hbi : b = i
    · subst hbi
      have hhead : (m.push b index value inUse).buck b = some m.nextAddr := Function.update_self ..
      rw [hhead, Function.update_self]
      exact .cons (m.push_self b index value inUse) hkeep
    · have hhead : (m.push i index value inUse).buck b = m.buck b := Function.update_of_ne hbi ..
      rw [hhead, Function.update_of_ne hbi]
      exact hkeep
  out := by
    intro b hb
    have hb : m.buckSize ≤ b := hb
    rw [Function.update_of_ne (by omega)]
    exact h.out b hb
  disjoint := by
    intro b b' a ha ha'
    rw [mem_update_cons] at ha ha'
    rcases ha with ⟨hb, ha⟩ | ha
    · rcases ha' with ⟨hb', _⟩ | ha'
      · rw [hb, hb']
      · exact absurd (ha ▸ ha') (h.nextAddr_notMem b')
    · rcases ha' with ⟨_, ha'⟩ | ha'
      · exact absurd (ha' ▸ ha) (h.nextAddr_notMem b)
      · exact h.disjoint b b' a ha ha'
  owned := by
    intro a e hget
    by_cases hnew : a = m.nextAddr
    · exact ⟨i, mem_update_cons.mpr (.inl ⟨rfl, hnew⟩)⟩
    · obtain ⟨b, hb⟩ := h.owned a e ((m.push_of_ne i index value inUse hnew).symm.trans hget)
      exact ⟨b, mem_update_cons.mpr (.inr hb)⟩
  alloc := by
    intro b a ha
    rcases mem_update_cons.mp ha with ⟨_, rfl⟩ | ha
    · exact Nat.lt_succ_self _
    · exact Nat.lt_succ_of_lt (h.alloc b a ha)
  bucket := by
    intro b a e ha hget hin
    rcases mem_update_cons.mp ha with ⟨rfl, rfl⟩ | ha
    · have heq : e = ⟨index, value, inUse, m.buck b⟩ :=
        Option.some.inj (hget.symm.trans (m.push_self b index value inUse))
      rw [heq] at hin ⊢
      exact hbucket hin
    · have hne : a ≠ m.nextAddr := ne_of_mem_of_not_mem ha (h.nextAddr_notMem b)
      exact h.bucket b a e ha ((m.push_of_ne i index value inUse hne).symm.trans hget) hin

/-- What a new entry does to the keys and values in use. -/
theorem Wf.live_push (h : Wf m nodes) (hi : i < m.buckSize) (index value inUse : UInt64)
    (hbucket : inUse ≠ 0 → m.idx index = i) (c : Nat) (hc : c < m.buckSize) :
    live (m.push i index value inUse) c =
      if c = i then (pairOf ⟨index, value, inUse, m.buck i⟩).toList ++ live m c else live m c := by
  have hout : m.nextAddr ∉ nodes c := h.nextAddr_notMem c
  rw [(h.push hi index value inUse hbucket).live_eq hc, h.live_eq hc]
  by_cases hci : c = i
  · subst hci
    rw [if_pos rfl, Function.update_self, ← List.nil_append (m.nextAddr :: nodes c),
      pairs_split (m.push_self c index value inUse)]
    simp only [pairs, BogusCmap.push, entries_update_of_notMem hout]
    rfl
  · rw [if_neg hci, Function.update_of_ne hci]
    simp only [pairs, BogusCmap.push, entries_update_of_notMem hout]

/-! ## cmap_alloc -/

/-- A map of lists in which no entry is in use and every value is 0. -/
structure Blank (m : BogusCmap) : Prop where
  wf : ∃ nodes, Wf m nodes
  inUse : ∀ a e, m.heap a = some e → e.inUse = 0
  value : ∀ a e, m.heap a = some e → e.value = 0

theorem Blank.live_eq_nil (h : Blank m) (hb : b < m.buckSize) : live m b = [] := by
  obtain ⟨nodes, hwf⟩ := h.wf
  rw [hwf.live_eq hb, List.eq_nil_iff_forall_not_mem]
  rintro ⟨k, v⟩ hmem
  obtain ⟨a, -, e, hget, hin, -⟩ := mem_pairs.mp hmem
  exact hin (h.inUse a e hget)

/-- To put a free entry in front of a bucket keeps the map without live ones. -/
theorem Blank.push (h : Blank m) (hi : i < m.buckSize) : Blank (m.push i 0 0 0) := by
  have hget {a : Addr} {e : Entry} (hget : (m.push i 0 0 0).heap a = some e) :
      e = ⟨0, 0, 0, m.buck i⟩ ∨ m.heap a = some e := by
    by_cases hnew : a = m.nextAddr
    · subst hnew
      exact .inl (Option.some.inj (hget.symm.trans (m.push_self i 0 0 0)))
    · exact .inr ((m.push_of_ne i 0 0 0 hnew).symm.trans hget)
  obtain ⟨nodes, hwf⟩ := h.wf
  refine ⟨⟨_, hwf.push hi 0 0 0 fun hne => absurd rfl hne⟩, fun a e ha => ?_, fun a e ha => ?_⟩
  · rcases hget ha with rfl | hold
    · rfl
    · exact h.inUse a e hold
  · rcases hget ha with rfl | hold
    · rfl
    · exact h.value a e hold

/-- With `NULL` in the array of buckets, `cmap_alloc` makes lists of free
entries. -/
theorem blank_cmapAlloc (hpos : 0 < buckSize) (dataSize : Nat)
    (hfresh : ∀ b < buckSize, fresh b = none) :
    Blank (cmapAlloc buckSize dataSize fresh) ∧
      (cmapAlloc buckSize dataSize fresh).buckSize = buckSize := by
  have hloop : ∀ m, (Blank m ∧ m.buckSize = buckSize) → ∀ i ∈ List.range buckSize,
      (Blank ((List.range dataSize).foldl (fun m _ => m.push i 0 0 0) m) ∧
        ((List.range dataSize).foldl (fun m _ => m.push i 0 0 0) m).buckSize = buckSize) := by
    intro m hm i hi
    rw [List.mem_range] at hi
    exact List.foldlRecOn (motive := fun m => Blank m ∧ m.buckSize = buckSize) _ _ hm
      fun m hm _ _ => ⟨hm.1.push (hm.2 ▸ hi), hm.2⟩
  refine List.foldlRecOn (motive := fun m => Blank m ∧ m.buckSize = buckSize) _ _ ?_ hloop
  refine ⟨⟨⟨fun _ => [], hpos, ?_, fun _ _ => rfl, ?_, ?_, ?_, ?_⟩, ?_, ?_⟩, rfl⟩
  · intro b hb
    simp only [hfresh b hb]
    exact .nil
  all_goals intros; contradiction

/-! ## the searches -/

/-- `cmap_set` finds the first free entry, or there is none. -/
theorem Wf.searchFree_cases (h : Wf m nodes) (hi : i < m.buckSize) :
    (∃ l₁ a l₂ e, nodes i = l₁ ++ a :: l₂ ∧ m.heap a = some e ∧ e.inUse = 0 ∧
        searchFree m i = some (some (a, e))) ∨
      (∀ a ∈ nodes i, ∀ e, m.heap a = some e → e.inUse ≠ 0) ∧ searchFree m i = some none := by
  rcases walk_cases (h.chain i hi) (fun e => e.inUse == 0) (h.chain_length_lt (h.chain i hi)) with
    ⟨l₁, a, l₂, e, hl, hget, hstop, -, hwalk⟩ | ⟨hall, hwalk⟩
  · exact .inl ⟨l₁, a, l₂, e, hl, hget, by simpa using hstop, hwalk⟩
  · refine .inr ⟨fun a ha e hget => ?_, hwalk⟩
    simpa using hall a ha e hget

/-- The first entry in use with the key. -/
structure First (m : BogusCmap) (nodes : Nat → List Addr) (key : UInt64) (l₁ : List Addr) (a : Addr)
    (l₂ : List Addr) (e : Entry) : Prop where
  split : nodes (m.idx key) = l₁ ++ a :: l₂
  get : m.heap a = some e
  inUse : e.inUse ≠ 0
  index : e.index = key
  first : ∀ v, (key, v) ∉ pairs m.heap l₁

/-- `cmap_get` and `cmap_del` find the first entry in use with the key, or
there is none. -/
theorem Wf.searchKey_cases (h : Wf m nodes) (key : UInt64) :
    (∃ l₁ a l₂ e, First m nodes key l₁ a l₂ e ∧ searchKey m key = some (some (a, e))) ∨
      (∀ v, (key, v) ∉ live m (m.idx key)) ∧ searchKey m key = some none := by
  have hi := h.idx_lt key
  have hmiss {l : List Addr}
      (hall : ∀ x ∈ l, ∀ e, m.heap x = some e → (e.inUse != 0 && e.index == key) = false)
      (v : UInt64) : (key, v) ∉ pairs m.heap l := by
    intro hmem
    obtain ⟨x, hx, e, hget, hin, hkey, -⟩ := mem_pairs.mp hmem
    have hstop := hall x hx e hget
    simp [hin, hkey] at hstop
  rcases walk_cases (h.chain _ hi) (fun e => e.inUse != 0 && e.index == key)
    (h.chain_length_lt (h.chain _ hi)) with
    ⟨l₁, a, l₂, e, hl, hget, hstop, hbefore, hwalk⟩ | ⟨hall, hwalk⟩
  · rw [Bool.and_eq_true, bne_iff_ne, beq_iff_eq] at hstop
    exact .inl ⟨l₁, a, l₂, e, ⟨hl, hget, hstop.1, hstop.2, hmiss hbefore⟩, hwalk⟩
  · rw [h.live_eq hi]
    exact .inr ⟨hmiss hall, hwalk⟩

/-! ## what a call does -/

/-- The ways a call can go. -/
inductive Outcome (m : BogusCmap) (nodes : Nat → List Addr) : Call → BogusCmap → Reply → Prop where
  | fill : nodes (m.idx key) = l₁ ++ a :: l₂ → m.heap a = some e → e.inUse = 0 →
      Outcome m nodes (.set key value)
        (m.store a { e with index := key, value := value, inUse := 1 })
        ⟨m.idx key, none⟩
  | grow : (∀ a ∈ nodes (m.idx key), ∀ e, m.heap a = some e → e.inUse ≠ 0) →
      Outcome m nodes (.set key value) (m.push (m.idx key) key value 1) ⟨m.idx key, none⟩
  | visit : First m nodes key l₁ a l₂ e →
      Outcome m nodes (.get key (some cb)) (m.store a (cb e)) ⟨m.idx key, some e⟩
  | look : First m nodes key l₁ a l₂ e → Outcome m nodes (.get key none) m ⟨m.idx key, none⟩
  | clear : First m nodes key l₁ a l₂ e →
      Outcome m nodes (.del key) (m.store a ⟨0, 0, 0, e.next⟩) ⟨m.idx key, none⟩
  | getMiss : (∀ v, (key, v) ∉ live m (m.idx key)) → Outcome m nodes (.get key cb) m ⟨-1, none⟩
  | delMiss : (∀ v, (key, v) ∉ live m (m.idx key)) → Outcome m nodes (.del key) m ⟨-1, none⟩

/-- Every call returns, in one of these ways. -/
theorem Wf.call_cases (h : Wf m nodes) (c : Call) :
    ∃ m' r, call m c = some (m', r) ∧ Outcome m nodes c m' r := by
  cases c with
  | set key value =>
      rcases h.searchFree_cases (h.idx_lt key) with ⟨l₁, a, l₂, e, hl, hget, hfree, hs⟩ | ⟨hall, hs⟩
      · exact ⟨_, _, by rw [call, cmapSet, hs]; rfl, .fill hl hget hfree⟩
      · exact ⟨_, _, by rw [call, cmapSet, hs]; rfl, .grow hall⟩
  | get key cb =>
      rcases h.searchKey_cases key with ⟨l₁, a, l₂, e, hfirst, hs⟩ | ⟨hnone, hs⟩
      · cases cb with
        | none => exact ⟨_, _, by rw [call, cmapGet, hs]; rfl, .look hfirst⟩
        | some cb => exact ⟨_, _, by rw [call, cmapGet, hs]; rfl, .visit hfirst⟩
      · exact ⟨_, _, by rw [call, cmapGet, hs]; rfl, .getMiss hnone⟩
  | del key =>
      rcases h.searchKey_cases key with ⟨l₁, a, l₂, e, hfirst, hs⟩ | ⟨hnone, hs⟩
      · exact ⟨_, _, by rw [call, cmapDel, hs]; rfl, .clear hfirst⟩
      · exact ⟨_, _, by rw [call, cmapDel, hs]; rfl, .delMiss hnone⟩

section First

variable {key : UInt64} {l₁ l₂ : List Addr} {a : Addr} {e e' : Entry}

theorem First.mem (hf : First m nodes key l₁ a l₂ e) : a ∈ nodes (m.idx key) := by
  rw [hf.split]
  simp

theorem First.pairOf_eq (hf : First m nodes key l₁ a l₂ e) : pairOf e = some (key, e.value) :=
  pairOf_eq_some_iff.mpr ⟨hf.inUse, hf.index, rfl⟩

theorem First.live_eq (hf : First m nodes key l₁ a l₂ e) (h : Wf m nodes) :
    live m (m.idx key) = pairs m.heap l₁ ++ (key, e.value) :: pairs m.heap l₂ := by
  rw [h.live_eq (h.idx_lt key), hf.split, pairs_split hf.get, hf.pairOf_eq]
  simp

theorem First.wf (hf : First m nodes key l₁ a l₂ e) (h : Wf m nodes) (hnext : e'.next = e.next)
    (hindex : e'.inUse ≠ 0 → e'.index = key) : Wf (m.store a e') nodes :=
  h.store hf.mem hf.get hnext fun hin => by rw [hindex hin]

end First

theorem Outcome.buckSize (ho : Outcome m nodes c m' r) : m'.buckSize = m.buckSize := by
  cases ho <;> rfl

/-- The lists after a call. -/
theorem Outcome.wf (ho : Outcome m nodes c m' r) (h : Wf m nodes) (hc : c.Keeps) :
    Wf m' nodes ∨ ∃ key value, c = .set key value ∧ m' = m.push (m.idx key) key value 1 ∧
      Wf m' (Function.update nodes (m.idx key) (m.nextAddr :: nodes (m.idx key))) := by
  cases ho with
  | fill hl hget _ => exact .inl (h.store (by rw [hl]; simp) hget rfl fun _ => rfl)
  | grow _ => exact .inr ⟨_, _, rfl, rfl, h.push (h.idx_lt _) _ _ _ fun _ => rfl⟩
  | visit hf => exact .inl (hf.wf h (hc _).2 fun _ => (hc _).1.trans hf.index)
  | look _ | getMiss _ | delMiss _ => exact .inl h
  | clear hf => exact .inl (hf.wf h rfl fun hin => absurd rfl hin)

end Linuxyz.Cmap
