import Linuxyz.Cmap.Inv
import Linuxyz.Lib.System

/-!
# Linuxyz.Cmap.Frame

The frame law of the map: what each call changes, and that it changes nothing
else.

`FrameLaw` reads the buckets as lists of the keys and values in use.  A set
puts one pair somewhere into the bucket of its key, a delete takes the first
pair with its key out, a callback may replace that pair, and every other pair
of every bucket stays where it is.  Entries are taken from `malloc` only when
the bucket has no free one, and `cmap_free` gives each of them back once.
-/

namespace Linuxyz.Cmap

variable {m m₀ m' : BogusCmap} {nodes : Nat → List Addr} {c : Call} {r : Reply}

/-! ## the law -/

/-- The buckets other than `i` keep the pairs in use. -/
def Elsewhere (m m' : BogusCmap) (i : Nat) : Prop := ∀ b < m.buckSize, b ≠ i → live m' b = live m b

/-- The buckets keep their list nodes. -/
def SameNodes (m m' : BogusCmap) : Prop := ∀ b < m.buckSize, nodesOf m' b = nodesOf m b

/-- Bucket `i` had no free node, and has one new node at its head. -/
def NewNode (m m' : BogusCmap) (i : Nat) : Prop :=
  (∀ a ∈ nodesOf m i, ∀ e, m.heap a = some e → e.inUse ≠ 0) ∧
    ∃ a, m.heap a = none ∧ nodesOf m' i = a :: nodesOf m i ∧
      ∀ b < m.buckSize, b ≠ i → nodesOf m' b = nodesOf m b

/-- What a call may change. -/
inductive FrameLaw (m m' : BogusCmap) : Call → Reply → Prop where
  | set : live m (m.idx key) = l₁ ++ l₂ → live m' (m.idx key) = l₁ ++ (key, value) :: l₂ →
      Elsewhere m m' (m.idx key) → SameNodes m m' ∨ NewNode m m' (m.idx key) →
      FrameLaw m m' (.set key value) ⟨m.idx key, none⟩
  | visit : live m (m.idx key) = l₁ ++ (key, v) :: l₂ → (∀ v, (key, v) ∉ l₁) →
    pairOf e = some (key, v) → live m' (m.idx key) = l₁ ++ (pairOf (cb e)).toList ++ l₂ →
      Elsewhere m m' (m.idx key) → SameNodes m m' →
      FrameLaw m m' (.get key (some cb)) ⟨m.idx key, some e⟩
  | look : (∃ v, (key, v) ∈ live m (m.idx key)) → m' = m →
    FrameLaw m m' (.get key none) ⟨m.idx key, none⟩
  | getMiss : (∀ v, (key, v) ∉ live m (m.idx key)) → m' = m → FrameLaw m m' (.get key cb) ⟨-1, none⟩
  | del : live m (m.idx key) = l₁ ++ (key, v) :: l₂ → (∀ v, (key, v) ∉ l₁) →
      live m' (m.idx key) = l₁ ++ l₂ → Elsewhere m m' (m.idx key) → SameNodes m m' →
      FrameLaw m m' (.del key) ⟨m.idx key, none⟩
  | delMiss : (∀ v, (key, v) ∉ live m (m.idx key)) → m' = m → FrameLaw m m' (.del key) ⟨-1, none⟩

theorem Wf.sameNodes_store (h : Wf m nodes) (hwf : Wf (m.store a e') nodes) :
    SameNodes m (m.store a e') :=
  fun _ hb => (hwf.nodesOf_eq hb).trans (h.nodesOf_eq hb).symm

theorem Wf.elsewhere_store (h : Wf m nodes) (hl : nodes i = l₁ ++ a :: l₂)
    (hwf : Wf (m.store a e') nodes) :
    Elsewhere m (m.store a e') i := fun c hc hne => by rw [h.live_store hl hwf c hc, if_neg hne]

theorem Wf.newNode_push (h : Wf m nodes) (hi : i < m.buckSize) (index value inUse : UInt64)
    (hbucket : inUse ≠ 0 → m.idx index = i)
    (hall : ∀ a ∈ nodes i, ∀ e, m.heap a = some e → e.inUse ≠ 0) :
    NewNode m (m.push i index value inUse) i := by
  have hwf := h.push hi index value inUse hbucket
  refine ⟨by rwa [h.nodesOf_eq hi], m.nextAddr, h.heap_nextAddr, ?_, fun b hb hne => ?_⟩
  · rw [hwf.nodesOf_eq hi, h.nodesOf_eq hi, Function.update_self]
  · rw [hwf.nodesOf_eq hb, h.nodesOf_eq hb, Function.update_of_ne hne]

/-- Each way a call can go obeys the law. -/
theorem Outcome.frameLaw (ho : Outcome m nodes c m' r) (h : Wf m nodes) (hc : c.Keeps) :
    FrameLaw m m' c r := by
  cases ho with
  | @fill key l₁ a l₂ e value hl hget hfree =>
      have hi := h.idx_lt key
      have hwf : Wf (m.store a { e with index := key, value := value, inUse := 1 }) nodes :=
        h.store (by rw [hl]; simp) hget rfl fun _ => rfl
      have hnone : pairOf e = none := if_pos hfree
      have hold : live m (m.idx key) = pairs m.heap l₁ ++ pairs m.heap l₂ := by
        rw [h.live_eq hi, hl, pairs_split hget, hnone]
        simp
      have hnew := h.live_store hl hwf _ hi
      rw [if_pos rfl, List.append_assoc] at hnew
      exact .set hold hnew (h.elsewhere_store hl hwf) (.inl (h.sameNodes_store hwf))
  | @grow key value hall =>
      have hi := h.idx_lt key
      have hnew := h.live_push hi key value 1 (fun _ => rfl) _ hi
      have hold : live m (m.idx key) = [] ++ live m (m.idx key) := rfl
      rw [if_pos rfl] at hnew
      refine .set hold hnew (fun b hb hne => ?_)
        (.inr (h.newNode_push hi key value 1 (fun _ => rfl) hall))
      rw [h.live_push hi key value 1 (fun _ => rfl) b hb, if_neg hne]
  | @visit key l₁ a l₂ e cb hf =>
      have hwf : Wf (m.store a (cb e)) nodes := hf.wf h (hc e).2 fun _ => (hc e).1.trans hf.index
      have hnew := h.live_store hf.split hwf _ (h.idx_lt key)
      rw [if_pos rfl] at hnew
      exact .visit (hf.live_eq h) hf.first hf.pairOf_eq hnew (h.elsewhere_store hf.split hwf)
        (h.sameNodes_store hwf)
  | @look key l₁ a l₂ e hf =>
      have hmem : (key, e.value) ∈ live m (m.idx key) := by
        rw [hf.live_eq h]
        simp
      exact .look ⟨e.value, hmem⟩ rfl
  | @clear key l₁ a l₂ e hf =>
      have hwf : Wf (m.store a ⟨0, 0, 0, e.next⟩) nodes := hf.wf h rfl fun hin => absurd rfl hin
      have hnew := h.live_store hf.split hwf _ (h.idx_lt key)
      have hnone : pairOf ⟨0, 0, 0, e.next⟩ = none := rfl
      rw [if_pos rfl, hnone, Option.toList_none, List.append_nil] at hnew
      exact .del (hf.live_eq h) hf.first hnew (h.elsewhere_store hf.split hwf)
        (h.sameNodes_store hwf)
  | getMiss hnone => exact .getMiss hnone rfl
  | delMiss hnone => exact .delMiss hnone rfl

/-! ## allocation -/

/-- The addresses that hold an entry at the start, and those `malloc` has
handed out since. -/
def Allocated (m₀ m : BogusCmap) (a : Addr) : Prop :=
  (m₀.heap a).isSome ∨ m₀.nextAddr ≤ a ∧ a < m.nextAddr

/-- Every entry ever allocated is still there. -/
structure Keeps (m₀ m : BogusCmap) : Prop where
  le : m₀.nextAddr ≤ m.nextAddr
  heap : ∀ a, (m.heap a).isSome ↔ Allocated m₀ m a

/-- Nothing is lost where nothing has been done. -/
theorem Keeps.refl (m : BogusCmap) : Keeps m m where
  le := Nat.le_refl _
  heap := by
    intro a
    unfold Allocated
    constructor
    · exact .inl
    · rintro (h | ⟨hle, hlt⟩)
      · exact h
      · exact absurd hlt (Nat.not_lt.mpr hle)

/-- A store to an entry frees none. -/
theorem Keeps.store (h : Keeps m₀ m) (hget : m.heap a = some e) (e' : Entry) :
    Keeps m₀ (m.store a e') where
  le := h.le
  heap := by
    intro x
    refine Iff.trans ?_ (h.heap x)
    by_cases hx : x = a
    · subst hx
      simp [BogusCmap.store, hget]
    · simp [BogusCmap.store, hx]

/-- A new entry frees none either. -/
theorem Keeps.push (h : Keeps m₀ m) (i : Nat) (index value inUse : UInt64) :
    Keeps m₀ (m.push i index value inUse) where
  le := Nat.le_succ_of_le h.le
  heap := by
    intro x
    have hle := h.le
    have hx := h.heap x
    simp only [Allocated, BogusCmap.push] at hx ⊢
    by_cases hnew : x = m.nextAddr
    · subst hnew
      simp [hle]
    · have hlt : x < m.nextAddr ↔ x < m.nextAddr + 1 :=
        ⟨Nat.lt_succ_of_lt, fun hx => Nat.lt_of_le_of_ne (Nat.le_of_lt_succ hx) hnew⟩
      rw [Function.update_of_ne hnew, hx, hlt]

/-- No call frees an entry or loses one. -/
theorem Outcome.keeps (ho : Outcome m nodes c m' r) (h : Keeps m₀ m) : Keeps m₀ m' := by
  cases ho with
  | fill _ hget _ => exact h.store hget _
  | grow _ => exact h.push ..
  | visit hf => exact h.store hf.get _
  | look _ => exact h
  | clear hf => exact h.store hf.get _
  | getMiss _ => exact h
  | delMiss _ => exact h

/-! ## cmap_free -/

/-- The buckets still to be freed are lists of their own. -/
theorem freeBuckets_of_chain {is : List Nat} (hnd : is.Nodup)
    (hchain : ∀ i ∈ is, Chain Entry.next m.heap (m.buck i) (nodes i))
    (hfuel : ∀ i ∈ is, (nodes i).length < m.fuel)
    (hdisj : ∀ b b' a, a ∈ nodes b → a ∈ nodes b' → b = b') :
    ∃ m', freeBuckets m is = some (m', is.flatMap nodes) := by
  induction is generalizing m with
  | nil => exact ⟨m, rfl⟩
  | cons i is ih =>
      obtain ⟨hout, hnd⟩ := List.nodup_cons.mp hnd
      have hfree := freeAll_of_chain (hchain i (by simp)) (hfuel i (by simp))
      -- the lists of the other buckets survive the frees of this one
      have hrest : ∀ j ∈ is, Chain Entry.next (fun x => if x ∈ nodes i then none else m.heap x)
          (Function.update m.buck i none j) (nodes j) := by
        intro j hj
        have hji : j ≠ i := fun heq => hout (heq ▸ hj)
        rw [Function.update_of_ne hji]
        refine (hchain j (by simp [hj])).congr fun a ha e hget => ⟨e, ?_, rfl⟩
        rw [if_neg fun hmem => hji (hdisj j i a ha hmem), hget]
      obtain ⟨m', hm'⟩ := ih
        (m := { m with
          heap := fun x => if x ∈ nodes i then none else m.heap x
          buck := Function.update m.buck i none })
        hnd hrest fun j hj => hfuel j (by simp [hj])
      exact ⟨m', by rw [freeBuckets, freeBucket, hfree]; simp [hm']⟩

/-- `cmap_free` frees every entry that was allocated, each once. -/
theorem Wf.cmapFree (h : Wf m nodes) :
    ∃ m' freed, cmapFree m = some (m', freed) ∧ freed.Nodup ∧ ∀ a, a ∈ freed ↔
      (m.heap a).isSome := by
  obtain ⟨m', hfree⟩ := freeBuckets_of_chain (List.nodup_range (n := m.buckSize))
    (fun i hi => h.chain i (List.mem_range.mp hi))
    (fun i hi => h.chain_length_lt (h.chain i (List.mem_range.mp hi))) h.disjoint
  refine ⟨m', _, hfree, ?_, fun a => ?_⟩
  · refine List.nodup_flatMap.mpr ⟨fun i _ => h.nodup i, List.nodup_range.imp ?_⟩
    intro i j hne a ha ha'
    exact hne (h.disjoint i j a ha ha')
  · rw [List.mem_flatMap]
    constructor
    · rintro ⟨i, hi, ha⟩
      obtain ⟨e, hget⟩ := (h.chain i (List.mem_range.mp hi)).isSome ha
      rw [hget]
      rfl
    · intro hsome
      obtain ⟨e, hget⟩ := Option.isSome_iff_exists.mp hsome
      obtain ⟨b, hb⟩ := h.owned a e hget
      exact ⟨b, List.mem_range.mpr (h.lt_of_mem hb), hb⟩

/-! ## runs -/

/-- Buckets that are `NULL`-terminated lists of free entries. -/
def FreeLists (m : BogusCmap) : Prop := ∃ nodes, Wf m nodes ∧ ∀ a e, m.heap a = some e → e.inUse = 0

theorem Blank.freeLists (h : Blank m) : FreeLists m := by
  obtain ⟨nodes, hwf⟩ := h.wf
  exact ⟨nodes, hwf, h.inUse⟩

/-- The calls on a map, one after the other. -/
def cmapSystem : System BogusCmap Call where
  init := FreeLists
  step m c := (call m c).map Prod.fst

/-- One call on a map of lists. -/
theorem Wf.call_law (h : Wf m nodes) (hc : c.Keeps) :
    ∃ m' r nodes', call m c = some (m', r) ∧ FrameLaw m m' c r ∧ Wf m' nodes' ∧
      m'.buckSize = m.buckSize ∧ ∀ m₀, Keeps m₀ m → Keeps m₀ m' := by
  obtain ⟨m', r, hcall, ho⟩ := h.call_cases c
  rcases ho.wf h hc with hwf | ⟨_, _, _, _, hwf⟩
  · exact ⟨m', r, _, hcall, ho.frameLaw h hc, hwf, ho.buckSize, fun _ => ho.keeps⟩
  · exact ⟨m', r, _, hcall, ho.frameLaw h hc, hwf, ho.buckSize, fun _ => ho.keeps⟩

/-- From free lists every sequence of calls whose callbacks keep the key and the link of
their entry returns and leaves lists in which an entry in use is in the bucket of its key;
the next call obeys the frame law, and `cmap_free` frees every entry ever allocated once. -/
theorem cmap_frame_law (hinit : FreeLists m₀) (calls : List Call) (hcalls : ∀ c ∈ calls, c.Keeps) :
    ∃ m nodes, cmapSystem.run m₀ calls = some m ∧ Wf m nodes ∧
      (∀ b < m.buckSize, nodesOf m b = nodes b ∧ (nodes b).Nodup) ∧
      (∀ c : Call, c.Keeps → ∃ m' r, call m c = some (m', r) ∧ FrameLaw m m' c r) ∧
      ∃ m' freed, cmapFree m = some (m', freed) ∧ freed.Nodup ∧ ∀ a, a ∈ freed ↔
        Allocated m₀ m a := by
  obtain ⟨nodes₀, hwf₀, -⟩ := hinit
  have hstep : ∀ m c, (∃ nodes, Wf m nodes) ∧ Keeps m₀ m → c.Keeps →
      ∃ m', cmapSystem.step m c = some m' ∧ (∃ nodes, Wf m' nodes) ∧ Keeps m₀ m' := by
    rintro m c ⟨⟨nodes, hwf⟩, hkeeps⟩ hc
    obtain ⟨m', r, nodes', hcall, -, hwf', -, hkeeps'⟩ := hwf.call_law hc
    exact ⟨m', by simp [cmapSystem, hcall], ⟨nodes', hwf'⟩, hkeeps' m₀ hkeeps⟩
  obtain ⟨m, hrun, ⟨nodes, hwf⟩, hkeeps⟩ :=
    (System.meets_of_forall m₀ hcalls).run hstep ⟨⟨nodes₀, hwf₀⟩, Keeps.refl m₀⟩
  obtain ⟨m', freed, hfree, hnd, hfreed⟩ := hwf.cmapFree
  refine ⟨m, nodes, hrun, hwf, fun b hb => ⟨hwf.nodesOf_eq hb, hwf.nodup b⟩, fun c hc => ?_, m',
    freed, hfree, hnd, fun a => (hfreed a).trans (hkeeps.heap a)⟩
  obtain ⟨m', r, -, hcall, hlaw, -⟩ := hwf.call_law hc
  exact ⟨m', r, hcall, hlaw⟩

/-- A set, an increment, a decrement and a delete on a new map. -/
theorem cmap_frame_law_new_map :
    ∃ m nodes, cmapSystem.run (cmapAlloc 2 1 fun _ => none)
        [.set 1 5, .get 1 (some incFunc), .get 1 (some decFunc), .del 1] = some m ∧
      Wf m nodes ∧ (∀ b < m.buckSize, nodesOf m b = nodes b ∧ (nodes b).Nodup) ∧
      (∀ c : Call, c.Keeps → ∃ m' r, call m c = some (m', r) ∧ FrameLaw m m' c r) ∧
      ∃ m' freed, cmapFree m = some (m', freed) ∧ freed.Nodup ∧
        ∀ a, a ∈ freed ↔ Allocated (cmapAlloc 2 1 fun _ => none) m a := by
  refine cmap_frame_law (blank_cmapAlloc (by decide) 1 fun _ _ => rfl).1.freeLists _ fun c hc => ?_
  simp only [List.mem_cons, List.not_mem_nil, or_false] at hc
  rcases hc with rfl | rfl | rfl | rfl
  · trivial
  · exact keeps_incFunc
  · exact keeps_decFunc
  · trivial

/-- A callback is handed the entry itself.  One that rewrites the key leaves an entry in use
in bucket 1 whose key belongs to bucket 0, and `cmap_get` of that key misses; one that
rewrites the link takes the entries behind it out of the list, and `cmap_free` frees one of
the two that were allocated. -/
theorem callback_breaks_frame :
    ((cmapSystem.run (cmapAlloc 2 1 fun _ => none)
        [.set 2 5, .get 2 (some fun e => { e with index := 1 })]).map fun m =>
      (m.idx 1, live m 0, live m 1, (call m (.get 1 none)).map Prod.snd)) =
        some (0, [], [(1, 5)], some ⟨-1, none⟩) ∧
    ((cmapSystem.run (cmapAlloc 1 1 fun _ => none)
        [.set 1 5, .set 2 7, .get 2 (some fun e => { e with next := none })]).bind fun m =>
      (cmapFree m).map fun freed => (m.nextAddr, live m 0, freed.2)) =
        some (2, [(2, 7)], [1]) :=
  ⟨rfl, rfl⟩

end Linuxyz.Cmap
