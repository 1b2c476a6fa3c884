import Linuxyz.Vector.Refine

/-!
# Linuxyz.Vector.Copying

The vectors of `inefficient.c`, which copy every string whenever one is added, beside the
one of `string.c` that grows by `realloc`.

`PushBackString` and `PushBackString2` replace the `struct VectorString`, and `VS_append`
only its array.  The field `vector` of a new `struct` is what `malloc` has left there
(`fresh`).  The first two free the old array when there was an element, and `VS_append`
frees it always, so that the first append frees what was never allocated.  `VS_delete`
frees the strings and the `struct`, and not the array.

All blocks are those of the vector: a `free` of anything else is a fault (`none`).
-/

namespace Linuxyz.Vector.Copying

open Option (bind_some bind_eq_bind bind_eq_some_iff)

/-- `struct VectorString` -/
structure VectorString where
  size : Nat
  vector : Option Nat

structure Objs where
  mem : Mem
  structs : Heap VectorString

def Objs.empty : Objs := ⟨⟨.empty, .empty⟩, .empty⟩

/-! ## Growing by a copy -/

/-- A turn of the loop: the string moves to a block of its own, and the old one is
freed. -/
def copyLine (vector : Option Nat) (newVec : Nat) (m : Mem) (i : Nat) : Option Mem := do
  let vec ← vector
  let p ← getSlot m.arrays vec i
  let block ← m.strings.block p
  let s ← readString block
  let (strings, q) ← copyString m.strings s (toSize (toInt (s.length + 1)))
  let arrays ← setSlot m.arrays newVec i q
  let strings ← strings.free p
  some ⟨arrays, strings⟩

/-- `free` of an array or of `NULL`, or nothing -/
def freeArray (m : Mem) (vector : Option Nat) (free : Bool) : Option Mem :=
  match free, vector with
  | true, some vec => (m.arrays.free vec).map fun arrays => ⟨arrays, m.strings⟩
  | _, _ => some m

/-- The new string in the last slot. -/
def addLine (newVec i : Nat) (newStr : List UInt8) (m : Mem) : Option Mem := do
  let (strings, p) ← copyString m.strings newStr (toSize (toInt (newStr.length + 1)))
  let arrays ← setSlot m.arrays newVec i p
  some ⟨arrays, strings⟩

/-- What the three functions do to the strings; `freeOld` says whether the old array is
freed. -/
def regrow (freeOld : VectorString → Bool) (m : Mem) (v : VectorString) (newStr : List UInt8) :
    Option (Mem × Nat) :=
  if intMax ≤ v.size then none
  else do
    let newVec := m.arrays.next
    let m ← (List.range v.size).foldlM (copyLine v.vector newVec)
      ⟨m.arrays.malloc (List.replicate (v.size + 1) none), m.strings⟩
    let m ← freeArray m v.vector (freeOld v)
    let m ← addLine newVec v.size newStr m
    some (m, newVec)

/-! ## The functions -/

section Functions

variable (fresh : Nat → VectorString)

/-- `VS_new`, and how a caller of `PushBackString` starts -/
def vsNew (o : Objs) : Objs × Nat :=
  (⟨o.mem, o.structs.malloc { fresh o.structs.next with size := 0 }⟩, o.structs.next)

/-- The body of `PushBackString` and of `PushBackString2`. -/
def replaceStruct (o : Objs) (sv : Nat) (newStr : List UInt8) : Option (Objs × Nat) := do
  let v ← o.structs.block sv
  let newSv := o.structs.next
  let structs := o.structs.malloc (fresh newSv)
  let (m, newVec) ← regrow (fun v => decide (0 < v.size)) o.mem v newStr
  let structs ← structs.free sv
  let structs ← structs.store newSv ⟨v.size + 1, some newVec⟩
  some (⟨m, structs⟩, newSv)

/-- `PushBackString`: the new vector is returned. -/
def pushBackString (o : Objs) (sv : Nat) (newStr : List UInt8) : Option (Objs × Nat) :=
  replaceStruct fresh o sv newStr

/-- `PushBackString2`: the new vector is stored in `*sv`. -/
def pushBackString2 (o : Objs) (sv : Nat) (newStr : List UInt8) : Option (Objs × Nat) :=
  replaceStruct fresh o sv newStr

def vsAppend (o : Objs) (sv : Nat) (newStr : List UInt8) : Option Objs := do
  let v ← o.structs.block sv
  let (m, newVec) ← regrow (fun _ => true) o.mem v newStr
  let structs ← o.structs.store sv ⟨v.size + 1, some newVec⟩
  some ⟨m, structs⟩

def vsDelete (o : Objs) (sv : Nat) : Option Objs := do
  let v ← o.structs.block sv
  let strings ← (List.range v.size).foldlM (fun strings i => do
    let vec ← v.vector
    let p ← getSlot o.mem.arrays vec i
    strings.free p) o.mem.strings
  let structs ← o.structs.free sv
  some ⟨⟨o.mem.arrays, strings⟩, structs⟩

/-! ## The builds -/

/-- From empty by repeated `PushBackString`. -/
def buildPush (strs : List CString) : Option (Objs × Nat) :=
  strs.foldlM (fun o s => pushBackString fresh o.1 o.2 s.bytes) (vsNew fresh .empty)

/-- By `VS_new` and repeated `VS_append`. -/
def buildAppend (strs : List CString) : Option (Objs × Nat) :=
  strs.foldlM (fun o s => (vsAppend o.1 o.2 s.bytes).map (·, o.2)) (vsNew fresh .empty)

/-- By `VS_new` and repeated `PushBackString2`. -/
def buildPush2 (strs : List CString) : Option (Objs × Nat) :=
  strs.foldlM (fun o s => pushBackString2 fresh o.1 o.2 s.bytes) (vsNew fresh .empty)

end Functions

/-- By repeated `VECTOR_PushBackString`. -/
def buildVector (strs : List CString) : Option Strings :=
  strs.foldlM (fun v s => strings.step v (.push s)) .start

/-- The vector has the strings of the list, each in a live block of its own. -/
def Denotes (o : Objs × Nat) (strs : List CString) : Prop :=
  ∃ v cells, o.1.structs.block o.2 = some v ∧ v.size = cells.length ∧ cells.map Prod.snd = strs ∧
    (cells ≠ [] → ∃ vec, v.vector = some vec ∧ Owns o.1.mem vec cells)

/-- No block is live. -/
def Objs.Gone (o : Objs) : Prop :=
  ∀ a, o.mem.arrays.block a = none ∧ o.mem.strings.block a = none ∧ o.structs.block a = none

/-- The count fits into an `int`, and the strings are shorter than `bound`. -/
def Short (bound : Nat) (strs : List CString) : Prop :=
  strs.length ≤ intMax ∧ ∀ s ∈ strs, s.bytes.length < bound

/-! ## Copies -/

/-- The size that is computed for a copy is right for strings that are short enough, and
for no others. -/
theorem lineSize_iff (n : Nat) :
    (toSize (toInt (n + 1)) ≤ ptrdiffMax ∧ n < toSize (toInt (n + 1))) ↔ n < intMax := by
  simp only [toSize, toInt, ptrdiffMax, intMax]
  split <;> omega

/-- A copy of a string that is short enough. -/
theorem copyLine_string (strings : Heap (List UInt8)) {s : CString}
    (hlen : s.bytes.length < intMax) :
    ∃ strings', copyString strings s.bytes (toSize (toInt (s.bytes.length + 1))) =
      some (strings', strings.next) ∧
      Holds strings' strings.next s ∧ ∀ p t, Holds strings p t → Holds strings' p t := by
  have hsize : toSize (toInt (s.bytes.length + 1)) = s.bytes.length + 1 :=
    toSize_toInt (by simp only [intMax] at hlen; omega)
  rw [hsize]
  exact copyString_spec strings s (by simp only [intMax, ptrdiffMax] at *; omega)

/-- The new array, filled but for its last slot. -/
structure Filled (newVec : Nat) (news : List (Nat × CString)) (m : Mem) : Prop where
  slots : m.arrays.block newVec = some ((news.map Prod.fst).map some ++ [none])
  nodup : (news.map Prod.fst).Nodup
  holds : ∀ c ∈ news, Holds m.strings c.1 c.2

/-- The two arrays after `k` turns of the loop: `news` are the copies. -/
structure Copied (vec newVec : Nat) (cells news : List (Nat × CString)) (k : Nat) (m : Mem) :
    Prop where
  copies : news.map Prod.snd = (cells.take k).map Prod.snd
  old : m.arrays.block vec = some ((cells.map Prod.fst).map some)
  new :
      m.arrays.block newVec =
        some ((news.map Prod.fst).map some ++ List.replicate (cells.length + 1 - k) none)
  nodup : ((news ++ cells.drop k).map Prod.fst).Nodup
  holds : ∀ c ∈ news ++ cells.drop k, Holds m.strings c.1 c.2

section Loop

variable {m : Mem} {vec newVec k : Nat} {cells news : List (Nat × CString)}

theorem Copied.length (h : Copied vec newVec cells news k m) (hk : k ≤ cells.length) :
    news.length = k := by
  have hlen := congrArg List.length h.copies
  simp only [List.length_map, List.length_take] at hlen
  omega

/-- A pointer is in no other slot. -/
theorem not_mem_of_nodup {as bs : List (Nat × CString)} {c : Nat × CString}
    (h : ((as ++ c :: bs).map Prod.fst).Nodup) : c.1 ∉ (as ++ bs).map Prod.fst := by
  rw [List.map_append, List.map_cons, List.nodup_middle, List.nodup_cons, ← List.map_append] at h
  exact h.1

/-- Replacing a pointer in the middle of a list by one that is not in it. -/
theorem nodup_replace {as bs : List (Nat × CString)} {c d : Nat × CString}
    (h : ((as ++ c :: bs).map Prod.fst).Nodup) (hd : d.1 ∉ (as ++ c :: bs).map Prod.fst) :
    ((as ++ d :: bs).map Prod.fst).Nodup := by
  simp only [List.map_append, List.map_cons, List.nodup_middle, List.nodup_cons, List.mem_append,
    List.mem_cons] at h hd ⊢
  exact ⟨fun hmem => hd (by tauto), h.2⟩

/-- One turn of the loop copies one string into the new array. -/
theorem Copied.copyLine (h : Copied vec newVec cells news k m) (hne : vec ≠ newVec)
    {c : Nat × CString} (hc : cells[k]? = some c) (hlen : c.2.bytes.length < intMax) :
    ∃ m', copyLine (some vec) newVec m k = some m' ∧
      Copied vec newVec cells (news ++ [(m.strings.next, c.2)]) (k + 1) m' := by
  have hk : k < cells.length := (List.getElem?_eq_some_iff.mp hc).1
  have hdrop : cells.drop k = c :: cells.drop (k + 1) := by
    rw [List.drop_eq_getElem_cons hk, (List.getElem?_eq_some_iff.mp hc).2]
  have hnews := h.length (Nat.le_of_lt hk)
  have hnodup := h.nodup
  have hholds := h.holds
  rw [hdrop] at hnodup hholds
  obtain ⟨rest, hblock⟩ := hholds c (by simp)
  have hslot : getSlot m.arrays vec k = some c.1 := getSlot_of_block h.old (by simp [hc])
  obtain ⟨strings', hcopy, hnew, hold⟩ := copyLine_string m.strings hlen
  obtain ⟨arrays', hset, hset'⟩ := setSlot_of_block (i := k) h.new (by simp; omega) m.strings.next
  obtain ⟨rest', hlive⟩ := hold _ _ ⟨rest, hblock⟩
  obtain ⟨strings'', hfree, -, hother⟩ := Heap.free_of_live hlive
  -- no copy is where the old strings are
  have hnext : m.strings.next ∉ (news ++ c :: cells.drop (k + 1)).map Prod.fst := by
    intro hmem
    obtain ⟨d, hd, heq⟩ := List.mem_map.mp hmem
    obtain ⟨_, hd⟩ := hholds d hd
    exact Heap.ne_next_of_live hd heq
  refine ⟨⟨arrays', strings''⟩, ?_, ?_, ?_, ?_, ?_, ?_⟩
  · simp only [Copying.copyLine, hslot, hblock, readString_append, hcopy, hset, hfree,
      bind_eq_bind, bind_some]
  · rw [List.map_append, h.copies, List.take_add_one, hc]
    simp
  · rw [block_of_setSlot hset hne, h.old]
  · have hrest : cells.length + 1 - k = cells.length + 1 - (k + 1) + 1 := by omega
    rw [hset', hrest, List.replicate_succ, List.set_append_right _ _ (by simp [hnews])]
    simp [hnews]
  · rw [List.append_assoc]
    exact nodup_replace hnodup hnext
  · have hothers : ∀ d ∈ news ++ cells.drop (k + 1), Holds strings'' d.1 d.2 := by
      intro d hd
      refine (hold _ _ (hholds d (by grind))).of_free (fun heq => ?_) hother
      exact not_mem_of_nodup hnodup (heq ▸ List.mem_map_of_mem hd)
    have hself : Holds strings'' m.strings.next c.2 := by
      refine hnew.of_free (fun heq => hnext ?_) hother
      simp [heq]
    intro d hd
    rw [List.append_assoc, List.mem_append, List.singleton_append, List.mem_cons] at hd
    obtain hd | rfl | hd := hd
    · exact hothers d (List.mem_append_left _ hd)
    · exact hself
    · exact hothers d (List.mem_append_right _ hd)

/-- The first `k` turns of the loop. -/
theorem Copied.foldlM (h : Copied vec newVec cells [] 0 m) (hne : vec ≠ newVec)
    (hshort : ∀ c ∈ cells, c.2.bytes.length < intMax) (hk : k ≤ cells.length) :
    ∃ m' news, (List.range k).foldlM (Copying.copyLine (some vec) newVec) m = some m' ∧
      Copied vec newVec cells news k m' := by
  induction k with
  | zero => exact ⟨m, [], rfl, h⟩
  | succ k ih =>
      obtain ⟨m₁, news, hrun, hcopied⟩ := ih (Nat.le_of_succ_le hk)
      have hc := List.getElem?_eq_getElem (Nat.lt_of_succ_le hk)
      obtain ⟨m', hline, hcopied'⟩ := hcopied.copyLine hne hc (hshort _ (List.getElem_mem _))
      exact ⟨m', _, by rw [foldlM_range_succ, hrun, bind_some, hline], hcopied'⟩

theorem Copied.filled (h : Copied vec newVec cells news cells.length m) : Filled newVec news m where
  slots := by
    have hnew := h.new
    rwa [Nat.add_sub_cancel_left] at hnew
  nodup := by simpa using h.nodup
  holds := by simpa using h.holds

/-- The new string comes last. -/
theorem Filled.addLine (h : Filled newVec news m) {s : CString} (hlen : s.bytes.length < intMax) :
    ∃ m', addLine newVec news.length s.bytes m = some m' ∧
      Owns m' newVec (news ++ [(m.strings.next, s)]) := by
  obtain ⟨strings', hcopy, hnew, hold⟩ := copyLine_string m.strings hlen
  obtain ⟨arrays', hset, hset'⟩ :=
    setSlot_of_block (i := news.length) h.slots (by simp) m.strings.next
  refine ⟨⟨arrays', strings'⟩, ?_, fun _ => ?_, ?_, ?_⟩
  · simp only [Copying.addLine, hcopy, hset, bind_eq_bind, bind_some]
  · rw [hset', List.set_append_right _ _ (by simp)]
    simp
  · rw [List.map_append]
    refine h.nodup.append (List.nodup_singleton _) (List.disjoint_singleton.mpr fun hmem => ?_)
    obtain ⟨c, hc, heq⟩ := List.mem_map.mp hmem
    obtain ⟨_, hlive⟩ := h.holds c hc
    exact Heap.ne_next_of_live hlive heq
  · exact List.forall_mem_append.mpr ⟨fun c hc => hold _ _ (h.holds c hc),
      List.forall_mem_singleton.mpr hnew⟩

end Loop

/-! ## One string more -/

section Regrow

variable {m : Mem} {v : VectorString} {cells : List (Nat × CString)}

/-- The loop, and the `free` of the old array, where there are elements. -/
theorem regrow_copies (freeOld : VectorString → Bool) {vec : Nat} (hvec : v.vector = some vec)
    (howns : Owns m vec cells) (hcells : cells ≠ [])
    (hsize : v.size = cells.length) (hshort : ∀ c ∈ cells, c.2.bytes.length < intMax) :
    ∃ m₁ m₂ news, (List.range v.size).foldlM (copyLine v.vector m.arrays.next)
        ⟨m.arrays.malloc (List.replicate (v.size + 1) none), m.strings⟩ = some m₁ ∧
      freeArray m₁ v.vector (freeOld v) = some m₂ ∧
      news.map Prod.snd = cells.map Prod.snd ∧ Filled m.arrays.next news m₂ := by
  have hlive := howns.slots hcells
  have hne : vec ≠ m.arrays.next := Heap.ne_next_of_live hlive
  have hstart : Copied vec m.arrays.next cells [] 0
      ⟨m.arrays.malloc (List.replicate (v.size + 1) none), m.strings⟩ :=
    { copies := rfl
      old := Heap.block_malloc_of_live hlive _
      new := by rw [hsize]; exact Heap.block_malloc_self ..
      nodup := howns.nodup
      holds := howns.holds }
  obtain ⟨m₁, news, hrun, hcopied⟩ := hstart.foldlM hne hshort (Nat.le_refl _)
  rw [← hsize, ← hvec] at hrun
  have hfilled := hcopied.filled
  have hcopies := hcopied.copies
  rw [List.take_length] at hcopies
  obtain ⟨arrays', hfree, -, hother⟩ := Heap.free_of_live hcopied.old
  cases freeOld v with
  | true =>
      refine ⟨m₁, ⟨arrays', m₁.strings⟩, news, hrun, ?_, hcopies, ?_, hfilled.nodup, hfilled.holds⟩
      · rw [hvec, freeArray, hfree, Option.map_some]
      · rw [hother _ hne.symm]
        exact hfilled.slots
  | false => exact ⟨m₁, m₁, news, hrun, rfl, hcopies, hfilled⟩

/-- The strings, and one more.  Where there is none yet, the old array must not be freed
unless it is `NULL`. -/
theorem regrow_spec (freeOld : VectorString → Bool) (hsize : v.size = cells.length)
    (howns : cells ≠ [] → ∃ vec, v.vector = some vec ∧ Owns m vec cells)
    (hfree : cells = [] → freeOld v = true → v.vector = none) {s : CString}
    (hshort : Short intMax (cells.map Prod.snd ++ [s])) :
    ∃ m' newVec cells', regrow freeOld m v s.bytes = some (m', newVec) ∧
      cells'.map Prod.snd = cells.map Prod.snd ++ [s] ∧ Owns m' newVec cells' := by
  obtain ⟨hcount, hlens⟩ := hshort
  have hcount' : ¬intMax ≤ v.size := by
    rw [List.length_append, List.length_map, List.length_singleton] at hcount
    omega
  obtain ⟨m₁, m₂, news, hrun, hfreed, hnews, hfilled⟩ : ∃ m₁ m₂ news,
      (List.range v.size).foldlM (copyLine v.vector m.arrays.next)
        ⟨m.arrays.malloc (List.replicate (v.size + 1) none), m.strings⟩ = some m₁ ∧
      freeArray m₁ v.vector (freeOld v) = some m₂ ∧
      news.map Prod.snd = cells.map Prod.snd ∧ Filled m.arrays.next news m₂ := by
    by_cases hcells : cells = []
    · subst hcells
      have hnothing :
          freeArray ⟨m.arrays.malloc (List.replicate (v.size + 1) none),
            m.strings⟩ v.vector (freeOld v) =
          some ⟨m.arrays.malloc (List.replicate (v.size + 1) none), m.strings⟩ := by
        cases hfreeOld : freeOld v with
        | true =>
            rw [hfree rfl hfreeOld]
            rfl
        | false => rfl
      refine ⟨_, _, [], by rw [hsize]; rfl, hnothing, rfl, ?_, List.nodup_nil, by simp⟩
      rw [hsize]
      exact Heap.block_malloc_self ..
    · obtain ⟨vec, hvec, hown⟩ := howns hcells
      exact regrow_copies freeOld hvec hown hcells hsize fun c hc => hlens c.2 (by grind)
  have hlen : v.size = news.length := by
    rw [hsize, ← List.length_map (f := Prod.snd), ← hnews, List.length_map]
  obtain ⟨m', hadd, howns'⟩ := hfilled.addLine (hlens s (by simp))
  refine ⟨m', m.arrays.next, _, ?_, ?_, howns'⟩
  · rw [← hlen] at hadd
    simp only [regrow, if_neg hcount', hrun, hfreed, hadd, bind_eq_bind, bind_some]
  · rw [List.map_append, hnews]
    rfl

/-- Nothing longer is added, and nothing to more elements. -/
theorem fits_of_regrow {freeOld : VectorString → Bool} {newStr : List UInt8} {r : Mem × Nat}
    (h : regrow freeOld m v newStr = some r) :
    v.size < intMax ∧ newStr.length < intMax := by
  rw [regrow] at h
  split at h
  · cases h
  · next hcount =>
    refine ⟨Nat.not_le.mp hcount, (lineSize_iff _).mp ?_⟩
    simp only [addLine, bind_eq_bind, bind_eq_some_iff] at h
    obtain ⟨m₁, -, m₂, -, m₃, ⟨⟨strings, p⟩, hcopy, -⟩, -⟩ := h
    by_contra hlong
    rw [copyString, if_neg hlong] at hcopy
    cases hcopy

/-- A first string is not added where the old array is freed and `vector` is not `NULL`:
the pointer is that of no array, or of the new one. -/
theorem regrow_garbage {freeOld : VectorString → Bool} {vec : Nat} (hvec : v.vector = some vec)
    (hsize : v.size = 0) (hfree : freeOld v = true) (hnone : ∀ a, m.arrays.block a = none)
    (newStr : List UInt8) : regrow freeOld m v newStr = none := by
  rw [Option.eq_none_iff_forall_ne_some]
  intro r h
  rw [regrow, hsize, if_neg (by decide), hfree, hvec] at h
  simp only [List.range_zero, List.foldlM_nil, Option.pure_def, bind_eq_bind,
    bind_some, freeArray, bind_eq_some_iff, Option.map_eq_some_iff, addLine] at h
  obtain ⟨-, ⟨arrays, hfreed, rfl⟩, m', ⟨⟨strings, p⟩, -, arrays', hset, -⟩, -⟩ := h
  obtain ⟨b, hlive, -⟩ := Option.map_eq_some_iff.mp hfreed
  have hself : vec = m.arrays.next := by
    by_contra hne
    rw [Heap.block_malloc_of_ne _ _ hne, hnone] at hlive
    cases hlive
  rw [hself] at hfreed
  rw [setSlot, Heap.block_of_free hfreed] at hset
  cases hset

end Regrow

/-! ## Calls -/

section Calls

variable {fresh : Nat → VectorString} {o : Objs × Nat} {strs : List CString} {s : CString}

theorem length_of_strings {cells cells' : List (Nat × CString)}
    (h : cells'.map Prod.snd = cells.map Prod.snd ++ [s]) : cells'.length = cells.length + 1 := by
  have hlen := congrArg List.length h
  simpa using hlen

theorem denotes_vsNew (fresh : Nat → VectorString) (o : Objs) : Denotes (vsNew fresh o) [] :=
  ⟨_, [], Heap.block_malloc_self .., rfl, rfl, fun hne => absurd rfl hne⟩

/-- The push that copies the whole vector adds the string, if all strings are short
enough. -/
theorem Denotes.replaceStruct (h : Denotes o strs) (hshort : Short intMax (strs ++ [s])) :
    ∃ o', replaceStruct fresh o.1 o.2 s.bytes = some o' ∧ Denotes o' (strs ++ [s]) := by
  obtain ⟨v, cells, hblock, hsize, rfl, howns⟩ := h
  obtain ⟨m', newVec, cells', hregrow, hcells', howns'⟩ :=
    regrow_spec (fun v => decide (0 < v.size)) hsize howns (fun hnil hpos => by
      rw [decide_eq_true_eq, hsize, hnil] at hpos
      exact absurd hpos (Nat.lt_irrefl 0)) hshort
  have hne : o.2 ≠ o.1.structs.next := Heap.ne_next_of_live hblock
  obtain ⟨structs₁, hfree, -, hother⟩ :=
    Heap.free_of_live (Heap.block_malloc_of_live hblock (fresh o.1.structs.next))
  have hlive : structs₁.block o.1.structs.next = some (fresh o.1.structs.next) := by
    rw [hother _ hne.symm, Heap.block_malloc_self]
  obtain ⟨structs₂, hstore, hnew⟩ := Heap.store_of_live hlive ⟨v.size + 1, some newVec⟩
  refine ⟨(⟨m', structs₂⟩, o.1.structs.next), ?_, _, cells', hnew, ?_,
    hcells', fun _ => ⟨newVec, rfl, howns'⟩⟩
  · simp only [Copying.replaceStruct, hblock, hregrow, hfree, hstore, bind_eq_bind,
      bind_some]
  · rw [length_of_strings hcells', hsize]

/-- Conversely, a push that returns has found room for the count and the string. -/
theorem Denotes.fits_replaceStruct {o' : Objs × Nat} (h : Denotes o strs)
    (hcall : Copying.replaceStruct fresh o.1 o.2 s.bytes = some o') :
    strs.length < intMax ∧ s.bytes.length < intMax := by
  obtain ⟨v, cells, hblock, hsize, rfl, -⟩ := h
  simp only [Copying.replaceStruct, hblock, bind_eq_bind, bind_some,
    bind_eq_some_iff] at hcall
  obtain ⟨r, hregrow, -⟩ := hcall
  have hfits := fits_of_regrow hregrow
  rw [hsize, ← List.length_map (f := Prod.snd)] at hfits
  exact hfits

/-- The field `vector` of a vector without elements is `NULL`. -/
def NullStart (o : Objs × Nat) (strs : List CString) : Prop :=
  strs = [] → ∀ v, o.1.structs.block o.2 = some v → v.vector = none

/-- The push in place adds the string, if the first one has found a null pointer to grow
from. -/
theorem Denotes.vsAppend (h : Denotes o strs) (hnull : NullStart o strs)
    (hshort : Short intMax (strs ++ [s])) :
    ∃ o', (vsAppend o.1 o.2 s.bytes).map (·, o.2) = some o' ∧ Denotes o' (strs ++ [s]) ∧
      NullStart o' (strs ++ [s]) := by
  obtain ⟨v, cells, hblock, hsize, rfl, howns⟩ := h
  obtain ⟨m', newVec, cells', hregrow, hcells', howns'⟩ :=
    regrow_spec (fun _ => true) hsize howns
      (fun hnil _ => hnull (by rw [hnil]; rfl) v hblock) hshort
  obtain ⟨structs', hstore, hnew⟩ := Heap.store_of_live hblock ⟨v.size + 1, some newVec⟩
  refine ⟨(⟨m', structs'⟩, o.2), ?_,
    ⟨_, cells', hnew, ?_, hcells', fun _ => ⟨newVec, rfl, howns'⟩⟩, ?_⟩
  · simp only [Copying.vsAppend, hblock, hregrow, hstore, bind_eq_bind, bind_some,
      Option.map_some]
  · rw [length_of_strings hcells', hsize]
  · intro hnil
    exact absurd hnil (List.append_ne_nil_of_right_ne_nil _ (List.cons_ne_nil s []))

/-- Conversely, a push in place that returns has found room for the count and the
string. -/
theorem Denotes.fits_vsAppend {o' : Objs × Nat} (h : Denotes o strs)
    (hcall : (Copying.vsAppend o.1 o.2 s.bytes).map (·, o.2) = some o') :
    strs.length < intMax ∧ s.bytes.length < intMax := by
  obtain ⟨v, cells, hblock, hsize, rfl, -⟩ := h
  simp only [Copying.vsAppend, hblock, bind_eq_bind, bind_some,
    bind_eq_some_iff, Option.map_eq_some_iff] at hcall
  obtain ⟨o₁, ⟨r, hregrow, -⟩, -⟩ := hcall
  have hfits := fits_of_regrow hregrow
  rw [hsize, ← List.length_map (f := Prod.snd)] at hfits
  exact hfits

/-- The first append to a vector whose field `vector` is not `NULL`. -/
theorem vsAppend_garbage {vec : Nat} (hvec : (fresh 0).vector = some vec) (newStr : List UInt8) :
    vsAppend (vsNew fresh .empty).1 (vsNew fresh .empty).2 newStr = none := by
  have hblock : (vsNew fresh .empty).1.structs.block (vsNew fresh .empty).2 =
      some { fresh 0 with size := 0 } :=
    Heap.block_malloc_self ..
  have hregrow :
      regrow (fun _ => true) (vsNew fresh .empty).1.mem { fresh 0 with size := 0 } newStr = none :=
    regrow_garbage (v := { fresh 0 with size := 0 }) hvec rfl rfl (fun _ => rfl) newStr
  simp only [vsAppend, hblock, hregrow, bind_eq_bind, bind_some, Option.bind_none]

/-- `VS_delete` does not free the array. -/
theorem Denotes.not_gone {o' : Objs} (h : Denotes o strs) (hne : strs ≠ [])
    (hdelete : vsDelete o.1 o.2 = some o') : ¬o'.Gone := by
  obtain ⟨v, cells, -, -, rfl, howns⟩ := h
  have hcells : cells ≠ [] := mt (congrArg (List.map Prod.snd)) hne
  obtain ⟨vec, -, hown⟩ := howns hcells
  simp only [vsDelete, bind_eq_bind, bind_eq_some_iff] at hdelete
  obtain ⟨v', -, strings, -, structs, -, heq⟩ := hdelete
  cases heq
  intro hgone
  have hlive := hown.slots hcells
  rw [(hgone vec).1] at hlive
  cases hlive

/-- A vector without strings is freed as a whole. -/
theorem vsDelete_vsNew (fresh : Nat → VectorString) :
    ∃ o', vsDelete (vsNew fresh .empty).1 (vsNew fresh .empty).2 = some o' ∧ o'.Gone := by
  have hblock : (vsNew fresh .empty).1.structs.block (vsNew fresh .empty).2 =
      some { fresh 0 with size := 0 } :=
    Heap.block_malloc_self ..
  obtain ⟨structs, hfree, -, hother⟩ := Heap.free_of_live hblock
  refine ⟨⟨⟨.empty, .empty⟩, structs⟩, ?_, fun a => ⟨rfl, rfl, ?_⟩⟩
  · simp only [vsDelete, hblock, hfree, List.range_zero, List.foldlM_nil, Option.pure_def,
      bind_eq_bind, bind_some]
    rfl
  · by_cases ha : a = (vsNew fresh .empty).2
    · rw [ha, Heap.block_of_free hfree]
    · rw [hother a ha]
      exact Heap.block_malloc_of_ne _ _ ha

end Calls

/-! ## Builds -/

theorem short_nil (bound : Nat) : Short bound [] := ⟨Nat.zero_le _, by simp⟩

theorem short_append_singleton {bound : Nat} {strs : List CString} {s : CString} :
    Short bound (strs ++ [s]) ↔ Short bound strs ∧ strs.length < intMax ∧
      s.bytes.length < bound := by
  simp only [Short, List.length_append, List.length_singleton, List.mem_append, List.mem_singleton]
  grind

theorem Short.of_append {bound : Nat} {as bs : List CString} (h : Short bound (as ++ bs)) :
    Short bound as :=
  ⟨Nat.le_trans (by rw [List.length_append]; omega) h.1, fun s hs =>
    h.2 s (List.mem_append_left _ hs)⟩

/-- A build goes through if and only if the strings are short enough, when a step does. -/
theorem foldlM_iff_short {σ : Type} {step : σ → CString → Option σ} {P : σ → List CString → Prop}
    {bound : Nat} (hstep : ∀ {x strs s}, P x strs → Short bound (strs ++ [s]) →
      ∃ x', step x s = some x' ∧ P x' (strs ++ [s]))
    (hfits : ∀ {x strs s x'}, P x strs → step x s = some x' → strs.length < intMax ∧
      s.bytes.length < bound)
    {x : σ} {done : List CString} (hx : P x done) (hdone : Short bound done) (strs : List CString) :
    (∃ x', strs.foldlM step x = some x' ∧ P x' (done ++ strs)) ↔ Short bound (done ++ strs) := by
  induction strs generalizing x done with
  | nil =>
      rw [List.append_nil]
      exact iff_of_true ⟨x, rfl, hx⟩ hdone
  | cons s strs ih =>
      rw [List.append_cons]
      constructor
      · rintro ⟨x', hrun, hx'⟩
        obtain ⟨x₁, hs, hrest⟩ := Option.bind_eq_some_iff.mp hrun
        have hshort := short_append_singleton.mpr ⟨hdone, hfits hx hs⟩
        obtain ⟨x₂, hs₂, hx₂⟩ := hstep hx hshort
        obtain rfl : x₁ = x₂ := Option.some.inj (hs.symm.trans hs₂)
        exact (ih hx₂ hshort).mp ⟨x', hrest, hx'⟩
      · intro hshort
        obtain ⟨x₁, hs, hx₁⟩ := hstep hx hshort.of_append
        obtain ⟨x', hrest, hx'⟩ := (ih hx₁ hshort.of_append).mpr hshort
        exact ⟨x', Option.bind_eq_some_iff.mpr ⟨x₁, hs, hrest⟩, hx'⟩

/-- A build that gives a vector of the strings. -/
def Builds (build : List CString → Option (Objs × Nat)) (strs : List CString) : Prop :=
  ∃ o, build strs = some o ∧ Denotes o strs

/-- A build, after which `VS_delete` leaves nothing. -/
def Cleans (build : List CString → Option (Objs × Nat)) (strs : List CString) : Prop :=
  ∃ o o', build strs = some o ∧ Denotes o strs ∧ vsDelete o.1 o.2 = some o' ∧ o'.Gone

/-- The vector of `string.c` has the strings. -/
def BuildsVector (strs : List CString) : Prop :=
  ∃ v, buildVector strs = some v ∧ ∃ results, DenotesStrings v ⟨strs, results⟩

/-- The four builds give the same strings, and `VS_delete` leaves nothing. -/
structure Equivalent (fresh : Nat → VectorString) (strs : List CString) : Prop where
  push : Cleans (buildPush fresh) strs
  append : Cleans (buildAppend fresh) strs
  push2 : Cleans (buildPush2 fresh) strs
  vector : BuildsVector strs

section Builds

variable (fresh : Nat → VectorString) (strs : List CString)

theorem builds_push_iff : Builds (buildPush fresh) strs ↔ Short intMax strs :=
  foldlM_iff_short (fun h hshort => h.replaceStruct hshort) (fun h hcall =>
    h.fits_replaceStruct hcall)
    (denotes_vsNew fresh .empty) (short_nil _) strs

theorem builds_push2_iff : Builds (buildPush2 fresh) strs ↔ Short intMax strs :=
  builds_push_iff fresh strs

/-- Which vectors the push in place can build: for others than the empty one, memory
from `malloc` has to start with a null pointer. -/
theorem builds_append_iff :
    Builds (buildAppend fresh) strs ↔ strs = [] ∨ (fresh 0).vector = none ∧ Short intMax strs := by
  cases strs with
  | nil => exact iff_of_true ⟨_, rfl, denotes_vsNew fresh .empty⟩ (.inl rfl)
  | cons s strs =>
      rw [or_iff_right (List.cons_ne_nil s strs)]
      cases hvec : (fresh 0).vector with
      | none =>
          have hnull : NullStart (vsNew fresh .empty) [] := by
            intro _ v hv
            obtain rfl : _ = v := Option.some.inj ((Heap.block_malloc_self ..).symm.trans hv)
            exact hvec
          have hiff := foldlM_iff_short (P := fun o strs => Denotes o strs ∧ NullStart o strs)
            (fun h hshort => h.1.vsAppend h.2 hshort) (fun h hcall => h.1.fits_vsAppend hcall)
            ⟨denotes_vsNew fresh .empty, hnull⟩ (short_nil _) (s :: strs)
          rw [List.nil_append] at hiff
          rw [and_iff_right rfl, ← hiff]
          refine exists_congr fun o => and_congr_right fun _ => (and_iff_left fun hnil => ?_).symm
          cases hnil
      | some vec =>
          refine iff_of_false ?_ (fun h => by cases h.1)
          rintro ⟨o, hrun, -⟩
          rw [buildAppend, List.foldlM_cons, vsAppend_garbage hvec] at hrun
          cases hrun

/-- Which vectors the plain push can build. -/
theorem builds_vector_iff : BuildsVector strs ↔ Short (2 ^ 31) strs := by
  refine foldlM_iff_short (P := fun v strs => ∃ results, DenotesStrings v ⟨strs, results⟩) ?_ ?_
    ⟨[], denotesStrings_start⟩ (short_nil _) strs
  · rintro v strs s ⟨results, h⟩ hshort
    obtain ⟨-, hcount, hlen⟩ := short_append_singleton.mp hshort
    obtain ⟨v', hstep, hv'⟩ := h.push (s := s) ⟨by rw [h.rowc]; exact hcount, hlen⟩
    exact ⟨v', hstep, _, hv'⟩
  · rintro v strs s v' ⟨results, h⟩ hstep
    obtain ⟨r, hpush, -⟩ := Option.map_eq_some_iff.mp hstep
    have hfits := fits_of_pushBackString hpush
    rw [h.rowc] at hfits
    exact hfits

/-- Only a vector without strings is freed as a whole. -/
theorem cleans_iff {build : List CString → Option (Objs × Nat)}
    (hnil : build [] = some (vsNew fresh .empty)) : Cleans build strs ↔ strs = [] := by
  constructor
  · rintro ⟨o, o', -, h, hdelete, hgone⟩
    by_contra hne
    exact h.not_gone hne hdelete hgone
  · rintro rfl
    obtain ⟨o', hdelete, hgone⟩ := vsDelete_vsNew fresh
    exact ⟨_, o', hnil, denotes_vsNew fresh .empty, hdelete, hgone⟩

/-- **Push-back implementations**: for every list and whatever `malloc` leaves in fresh
blocks, all of it holds for the empty list only, since `VS_delete` loses the array.
Apart from that, the builds give the strings of the list, and free only what is theirs,
if and only if lengths and counts fit into an `int`, and for `VS_append` if also `malloc`
leaves `NULL` in the field `vector`. -/
theorem push_backs_iff :
    (Equivalent fresh strs ↔ strs = []) ∧ (Builds (buildPush fresh) strs ↔ Short intMax strs) ∧
      (Builds (buildAppend fresh) strs ↔ strs = [] ∨ (fresh 0).vector = none ∧ Short intMax strs) ∧
      (Builds (buildPush2 fresh) strs ↔ Short intMax strs) ∧
      (BuildsVector strs ↔ Short (2 ^ 31) strs) := by
  refine ⟨⟨fun h => (cleans_iff fresh strs rfl).mp h.push, ?_⟩, builds_push_iff fresh strs,
    builds_append_iff fresh strs, builds_push2_iff fresh strs, builds_vector_iff strs⟩
  rintro rfl
  exact
    { push := (cleans_iff fresh [] rfl).mpr rfl
      append := (cleans_iff fresh [] rfl).mpr rfl
      push2 := (cleans_iff fresh [] rfl).mpr rfl
      vector := (builds_vector_iff []).mpr (short_nil _) }

end Builds

/-- The list with the string "a".  `VS_append` frees the pointer 5 that `malloc` has left,
and after `PushBackString` and `VS_delete` the array of one slot is still live. -/
theorem push_backs_single :
    (buildAppend (fun _ => ⟨0, some 5⟩) [⟨[97], by decide⟩]).isNone = true ∧
      ((buildPush (fun _ => ⟨0, some 5⟩) [⟨[97], by decide⟩]).bind fun o =>
        (vsDelete o.1 o.2).map fun o' => o'.mem.arrays.block 0) = some (some [some 0]) := by
  decide

end Linuxyz.Vector.Copying
