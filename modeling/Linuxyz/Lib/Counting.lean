import Mathlib.Data.List.Nodup
import Mathlib.Data.List.Perm.Basic
import Mathlib.Logic.Function.Basic

/-!
# Linuxyz.Lib.Counting

Conservation of what several holders have together: how the occurrences of a
value change when one holder of a list, or one entry of a table, is replaced.
-/

namespace Linuxyz

variable {α β : Type} [DecidableEq β]

/-- One holder is replaced, and the others keep what they have. -/
theorem count_flatMap_set {l : List α} {c : Nat} {x y : α} {f g : α → List β} (h : l[c]? = some y)
    (hfg : ∀ z ∈ l.eraseIdx c, g z = f z) (b : β) :
    ((l.set c x).flatMap g).count b + (f y).count b = (l.flatMap f).count b + (g x).count b := by
  obtain ⟨hc, rfl⟩ := List.getElem?_eq_some_iff.mp h
  have hold := (List.getElem_cons_eraseIdx_perm hc).flatMap_right f
  have hc' : c < (l.set c x).length := by rwa [List.length_set]
  have hnew := (List.getElem_cons_eraseIdx_perm hc').flatMap_right g
  rw [List.getElem_set_self, List.eraseIdx_set_eq] at hnew
  have hrest : (l.eraseIdx c).flatMap g = (l.eraseIdx c).flatMap f := List.flatMap_congr hfg
  rw [← hold.count_eq, ← hnew.count_eq, List.flatMap_cons, List.flatMap_cons, List.count_append,
    List.count_append, hrest]
  omega

omit [DecidableEq β] in
/-- A holder is replaced by one with the same. -/
theorem flatMap_set_of_eq {l : List α} {c : Nat} {x y : α} {f : α → List β} (h : l[c]? = some y)
    (hf : f x = f y) : (l.set c x).flatMap f = l.flatMap f := by
  obtain ⟨hc, rfl⟩ := List.getElem?_eq_some_iff.mp h
  have hc' : c < (l.map f).length := by rwa [List.length_map]
  have hmap : (l.map f)[c] = f l[c] := List.getElem_map f
  rw [List.flatMap_def, List.flatMap_def, List.map_set, hf, ← hmap, List.set_getElem_self]

omit [DecidableEq β] in
/-- One element more fulfils the condition. -/
theorem filter_perm_cons {l : List β} {p q : β → Bool} {i : β} (hl : l.Nodup) (hi : i ∈ l)
    (hp : p i = true) (hq : q i = false)
    (hpq : ∀ j ∈ l, j ≠ i → q j = p j) : (l.filter p).Perm (i :: l.filter q) := by
  have hnot : i ∉ l.filter q := fun h => by
    rw [List.mem_filter, hq] at h
    cases h.2
  refine (List.perm_ext_iff_of_nodup (hl.filter p) (List.nodup_cons.mpr ⟨hnot, hl.filter q⟩)).mpr
    fun j => ?_
  rw [List.mem_filter, List.mem_cons, List.mem_filter]
  by_cases hj : j = i
  · simp [hj, hi, hp]
  · simp only [hj, false_or]
    exact and_congr_right fun hmem => by rw [hpq j hmem hj]

omit [DecidableEq β] in
/-- An entry of a table with distinct keys, and the other ones. -/
theorem perm_cons_filter [DecidableEq α] {l : List (α × β)} {k : α} {v : β}
    (hl : (l.map Prod.fst).Nodup) (h : (k, v) ∈ l) : l.Perm ((k, v) :: l.filter (·.1 ≠ k)) := by
  have hall :=
    filter_perm_cons (p := fun _ => true) (q := fun e => decide (e.1 ≠ k))
      (List.Nodup.of_map Prod.fst hl) h rfl (by simp)
    fun e he hne => decide_eq_true fun hk => hne (List.inj_on_of_nodup_map hl he h hk)
  rwa [List.filter_true] at hall

omit [DecidableEq β] in
/-- Where keys are distinct, each pair of a list is the one that is found. -/
theorem lookup_of_mem [DecidableEq α] {l : List (α × β)} {k : α} {v : β}
    (hl : (l.map Prod.fst).Nodup) (h : (k, v) ∈ l) : l.lookup k = some v := by
  induction l with
  | nil => cases h
  | cons e l ih =>
      obtain ⟨hnot, hnodup⟩ := List.nodup_cons.mp hl
      rcases List.mem_cons.mp h with rfl | h
      · exact List.lookup_cons_self
      · have hne : k ≠ e.1 := fun hk => hnot (hk ▸ List.mem_map_of_mem (f := Prod.fst) h)
        rw [List.lookup_cons, beq_false_of_ne hne]
        exact ih hnodup h

/-- One entry of a table is replaced. -/
theorem count_map_update {g : Nat → β} {i n : Nat} (h : i < n) (v b : β) :
    ((List.range n).map (Function.update g i v)).count b + [g i].count b =
      ((List.range n).map g).count b + [v].count b := by
  have hi : (List.range n)[i]? = some i := List.getElem?_range h
  have hset : (List.range n).set i i = List.range n := by
    apply List.ext_getElem (by simp)
    grind
  have hother : ∀ j ∈ (List.range n).eraseIdx i, [Function.update g i v j] = [g j] := fun j hj => by
    obtain ⟨k, hk, hj⟩ := List.mem_eraseIdx_iff_getElem?.mp hj
    grind
  have hcount := count_flatMap_set (x := i) hi hother b
  rw [hset] at hcount
  simpa only [List.flatMap_singleton, Function.update_self, ← List.map_eq_flatMap] using hcount

end Linuxyz
