import Linuxyz.Lib.Probe
import Linuxyz.Lib.System
import Mathlib.Data.List.Induction
import Mathlib.Data.List.Nodup

/-!
# Linuxyz.TenK.Table

The table of `run_epoll` in `var-ten-k`: `client_fds`, an array of `MAXCLIENT`
descriptors with `0` for a free slot.  `epoll_add_idx` stores a descriptor in the
first free slot from its home slot on, and `epoll_get_idx` looks it up the same
way.

Both are the probe loop of `Linuxyz.Lib.Probe` with another test, so what they do
is `probeAll_spec` at that test (`epollAddIdx_spec`, `epollGetIdx_spec`).  No slot is
ever emptied, and `epoll_get_idx` does not stop at a free slot: for a lookup it
is enough that the table holds exactly the descriptors that were given a slot
(`Inv`), whatever lies between a descriptor's home and its slot.
-/

namespace Linuxyz.TenK

/-! ## The two probe loops -/

/-- `epoll_add_idx` on the array `clientFds` of `MAXCLIENT` descriptors: the array
after the call and what is returned.  The loop makes at most `MAXCLIENT` turns; one
that is not over by then would be `none`. -/
def epollAddIdx (clientFds : List Nat) (fd : Nat) : Option (List Nat × Int) :=
  match probeAll (fun x => x == 0) clientFds (fd % clientFds.length) with
  | none => none
  | some (some idx) => some (clientFds.set idx fd, idx)
  | some none => some (clientFds, -1)

/-- `epoll_get_idx`, with the same bound on the turns of its loop. -/
def epollGetIdx (clientFds : List Nat) (fd : Nat) : Option Int :=
  match probeAll (fun x => x == fd) clientFds (fd % clientFds.length) with
  | none => none
  | some (some idx) => some idx
  | some none => some (-1)

/-- A descriptor is put into a free slot, or there is none. -/
theorem epollAddIdx_spec (clientFds : List Nat) (fd : Nat) (hn : 0 < clientFds.length) :
    (∃ i : Nat, epollAddIdx clientFds fd = some (clientFds.set i fd, (i : Int)) ∧
      clientFds[i]? = some 0) ∨
      (epollAddIdx clientFds fd = some (clientFds, -1) ∧ 0 ∉ clientFds) := by
  unfold epollAddIdx
  rcases probeAll_spec (fun x => x == 0) (Nat.mod_lt fd hn) with ⟨i, x, hi, hx, hstop⟩ |
    ⟨hnone, hall⟩
  · have hx0 : x = 0 := beq_iff_eq.mp hstop
    rw [hi]
    exact .inl ⟨i, rfl, hx0 ▸ hx⟩
  · rw [hnone]
    exact .inr ⟨rfl, fun h0 => by simpa using hall 0 h0⟩

/-- A descriptor is found in its slot, or it is in none. -/
theorem epollGetIdx_spec (clientFds : List Nat) (fd : Nat) (hn : 0 < clientFds.length) :
    (∃ i : Nat, epollGetIdx clientFds fd = some (i : Int) ∧ clientFds[i]? = some fd) ∨
      (epollGetIdx clientFds fd = some (-1) ∧ fd ∉ clientFds) := by
  unfold epollGetIdx
  rcases probeAll_spec (fun x => x == fd) (Nat.mod_lt fd hn) with ⟨i, x, hi, hx, hstop⟩ |
    ⟨hnone, hall⟩
  · have hxfd : x = fd := beq_iff_eq.mp hstop
    rw [hi]
    exact .inl ⟨i, rfl, hxfd ▸ hx⟩
  · rw [hnone]
    exact .inr ⟨rfl, fun hfd => by simpa using hall fd hfd⟩

/-! ## Sequences of calls -/

/-- The table, and each call of `epoll_add_idx` so far with what it returned. -/
structure Added where
  clientFds : List Nat
  calls : List (Nat × Int)
deriving DecidableEq

/-- How many descriptors have been given a slot. -/
def Added.held (t : Added) : Nat := t.calls.countP (fun call => call.2 != -1)

/-- Calls of `epoll_add_idx` on a table for `n` clients that is all zero at first. -/
def adding (n : Nat) : System Added Nat where
  init t := t = ⟨List.replicate n 0, []⟩
  step t fd := (epollAddIdx t.clientFds fd).map fun r => ⟨r.1, t.calls ++ [(fd, r.2)]⟩

theorem step_adding {n : Nat} {t : Added} {fd : Nat} {clientFds : List Nat} {r : Int}
    (h : epollAddIdx t.clientFds fd = some (clientFds, r)) :
    (adding n).step t fd = some ⟨clientFds, t.calls ++ [(fd, r)]⟩ := by
  change (epollAddIdx t.clientFds fd).map _ = _
  rw [h]
  rfl

/-- The table holds exactly the descriptors that were given a slot, in that slot. -/
structure Inv (n : Nat) (fds : List Nat) (t : Added) : Prop where
  length : t.clientFds.length = n
  called : t.calls.map Prod.fst = fds
  result : ∀ call ∈ t.calls, call.2 = -1 ∨ ∃ i : Nat, call.2 = i
  slot : ∀ fd, 0 < fd → ∀ i : Nat, t.clientFds[i]? = some fd ↔ (fd, (i : Int)) ∈ t.calls
  count : t.clientFds.countP (fun x => x != 0) = t.held

theorem inv_init (n : Nat) : Inv n [] ⟨List.replicate n 0, []⟩ where
  length := List.length_replicate
  called := rfl
  result := by simp
  slot fd hfd i := by
    simp only [List.not_mem_nil, iff_false, List.getElem?_replicate]
    grind
  count := by simp [Added.held]

/-- The table is full when as many descriptors hold a slot as there are slots. -/
theorem Inv.full_iff {n : Nat} {fds : List Nat} {t : Added} (h : Inv n fds t) :
    0 ∉ t.clientFds ↔ t.held = n := by
  rw [← h.count, ← h.length, List.countP_eq_length]
  constructor
  · intro h0 x hx
    exact bne_iff_ne.mpr fun hx0 => h0 (hx0 ▸ hx)
  · intro hall h0
    simpa using hall 0 h0

/-- A free slot was given to no descriptor. -/
theorem Inv.free {n : Nat} {fds : List Nat} {t : Added} (h : Inv n fds t)
    (hpos : ∀ fd ∈ fds, 0 < fd) {i : Nat}
    (hi : t.clientFds[i]? = some 0) : ∀ call ∈ t.calls, call.2 ≠ (i : Int) := by
  intro call hcall heq
  have hfd : 0 < call.1 := hpos call.1 (h.called ▸ List.mem_map_of_mem hcall)
  have hslot : t.clientFds[i]? = some call.1 := (h.slot call.1 hfd i).mpr (heq ▸ hcall)
  rw [hi, Option.some.injEq] at hslot
  omega

/-- One call keeps the invariant. -/
theorem Inv.add {n : Nat} {fds : List Nat} {t : Added} (h : Inv n fds t) (hpos : ∀ fd ∈ fds, 0 < fd)
    (hn : 0 < n) {fd : Nat} (hfd : 0 < fd) :
    ∃ t', (adding n).step t fd = some t' ∧ Inv n (fds ++ [fd]) t' := by
  have hlen := h.length
  have hcalled : ∀ r, (t.calls ++ [(fd, r)]).map Prod.fst = fds ++ [fd] := fun r => by
    rw [List.map_append, h.called]
    rfl
  have hresult : ∀ r : Int, (r = -1 ∨ ∃ i : Nat, r = i) →
      ∀ call ∈ t.calls ++ [(fd, r)], call.2 = -1 ∨
        ∃ i : Nat, call.2 = i := fun r hr call hcall => by
    rcases List.mem_append.mp hcall with hold | hnew
    · exact h.result call hold
    · rw [List.mem_singleton.mp hnew]
      exact hr
  rcases epollAddIdx_spec t.clientFds fd (by omega) with ⟨i, hadd, hi⟩ | ⟨hadd, hfull⟩
  · obtain ⟨hi', hi0⟩ := List.getElem?_eq_some_iff.mp hi
    refine ⟨⟨t.clientFds.set i fd, t.calls ++ [(fd, (i : Int))]⟩, step_adding hadd,
      by rw [List.length_set, hlen], hcalled _, hresult _ (.inr ⟨i, rfl⟩), ?_, ?_⟩
    · intro fd' hfd' j
      have hslot := h.slot fd' hfd' j
      have hfree := h.free hpos hi (fd', (i : Int))
      rw [List.mem_append, List.mem_singleton, ← hslot, List.getElem?_set]
      grind
    · have hcount := List.countP_set (p := fun x => x != 0) (a := fd) hi'
      have hne : (fd != 0) = true := bne_iff_ne.mpr (by omega)
      simp only [hi0, hne, bne_self_eq_false, Bool.false_eq_true, if_false, if_true,
        Nat.sub_zero] at hcount
      rw [hcount, h.count, Added.held, Added.held, List.countP_append]
      rfl
  · refine ⟨⟨t.clientFds, t.calls ++ [(fd, -1)]⟩, step_adding hadd, hlen, hcalled _,
      hresult _ (.inl rfl), ?_, ?_⟩
    · intro fd' hfd' j
      rw [h.slot fd' hfd' j, List.mem_append, List.mem_singleton]
      grind
    · rw [h.count, Added.held, Added.held, List.countP_append]
      rfl

/-- Every sequence of calls goes through and keeps the invariant. -/
theorem run_adding {n : Nat} (hn : 0 < n) (fds : List Nat) (hpos : ∀ fd ∈ fds, 0 < fd) :
    ∃ t, (adding n).run ⟨List.replicate n 0, []⟩ fds = some t ∧ Inv n fds t := by
  induction fds using List.reverseRecOn with
  | nil => exact ⟨_, rfl, inv_init n⟩
  | append_singleton fds fd ih =>
      have hfds : ∀ fd ∈ fds, 0 < fd := fun fd hfd => hpos fd (by simp [hfd])
      obtain ⟨t, hrun, hinv⟩ := ih hfds
      obtain ⟨t', hstep, hinv'⟩ := hinv.add hfds hn (hpos fd (by simp))
      refine ⟨t', ?_, hinv'⟩
      rw [System.run_append, hrun, Option.bind_some, System.run_cons, hstep]
      rfl

/-- A lookup finds what the only call with this descriptor returned. -/
theorem Inv.get {n : Nat} {fds : List Nat} {t : Added} (h : Inv n fds t) (hdistinct : fds.Nodup)
    (hn : 0 < n) {fd : Nat} (hfd : 0 < fd) :
    ∃ r, epollGetIdx t.clientFds fd = some r ∧ (∀ call ∈ t.calls, call.1 = fd → r = call.2) ∧
      (fd ∉ fds → r = -1) := by
  have hlen := h.length
  rcases epollGetIdx_spec t.clientFds fd (by omega) with ⟨i, hget, hi⟩ | ⟨hget, hnone⟩
  · have hcall : (fd, (i : Int)) ∈ t.calls := (h.slot fd hfd i).mp hi
    refine ⟨i, hget, fun call hmem hfst => ?_, fun hnot => ?_⟩
    · have hnodup : (t.calls.map Prod.fst).Nodup := h.called ▸ hdistinct
      rw [← List.inj_on_of_nodup_map hnodup hcall hmem hfst.symm]
    · exact absurd (h.called ▸ List.mem_map_of_mem hcall) hnot
  · refine ⟨-1, hget, fun call hmem hfst => ?_, fun _ => rfl⟩
    rcases h.result call hmem with hrefused | ⟨i, hi⟩
    · exact hrefused.symm
    · -- a descriptor with a slot stands in the table
      have hslot := (h.slot fd hfd i).mpr (by rw [← hi, ← hfst]; exact hmem)
      exact absurd (List.mem_of_getElem? hslot) hnone

/-- **The table is a map from descriptors to slots**: after any calls of
`epoll_add_idx` with different positive descriptors, the next call returns `-1` if the
table is full, which is when `n` descriptors hold a slot, and else a slot of the
table that no descriptor was given; and `epoll_get_idx` returns for each descriptor
what `epoll_add_idx` returned for it, and `-1` for any other.  Each loop ends
within `n` turns. -/
theorem epoll_table_correct {n : Nat} (hn : 1 ≤ n) {fds : List Nat} (hpos : ∀ fd ∈ fds, 0 < fd)
    (hdistinct : fds.Nodup) :
    ∃ t, (adding n).run ⟨List.replicate n 0, []⟩ fds = some t ∧ t.calls.map Prod.fst = fds ∧
      (0 ∉ t.clientFds ↔ t.held = n) ∧
      (∀ fd, 0 < fd → fd ∉ fds → ∃ clientFds r, epollAddIdx t.clientFds fd = some (clientFds, r) ∧
        (r = -1 ↔ 0 ∉ t.clientFds) ∧ (r ≠ -1 → 0 ≤ r ∧ r < n ∧ ∀ call ∈ t.calls, call.2 ≠ r)) ∧
      (∀ fd, 0 < fd → ∃ r, epollGetIdx t.clientFds fd = some r ∧
        (∀ call ∈ t.calls, call.1 = fd → r = call.2) ∧ (fd ∉ fds → r = -1)) := by
  obtain ⟨t, hrun, hinv⟩ := run_adding hn fds hpos
  have hlen := hinv.length
  refine ⟨t, hrun, hinv.called, hinv.full_iff, fun fd _ _ => ?_, fun fd hfd =>
    hinv.get hdistinct hn hfd⟩
  rcases epollAddIdx_spec t.clientFds fd (by omega) with ⟨i, hadd, hi⟩ | ⟨hadd, hfull⟩
  · have hlt : i < n := hlen ▸ (List.getElem?_eq_some_iff.mp hi).1
    have hzero : 0 ∈ t.clientFds := List.mem_of_getElem? hi
    refine ⟨_, _, hadd, ⟨fun h => by omega, fun h => absurd hzero h⟩, fun _ =>
      ⟨by omega, by omega, hinv.free hpos hi⟩⟩
  · exact ⟨_, _, hadd, ⟨fun _ => hfull, fun _ => rfl⟩, fun h => absurd rfl h⟩

/-- Three descriptors for three slots: `7` and `4` have the same home slot, and the
last one goes around the end of the table into slot `0`. -/
theorem epoll_table_correct_three :
    (adding 3).run ⟨List.replicate 3 0, []⟩ [7, 4, 5] = some ⟨[5, 7, 4], [(7, 1), (4, 2), (5, 0)]⟩ ∧
      ∃ t, (adding 3).run ⟨List.replicate 3 0, []⟩ [7, 4, 5] = some t ∧
        ∃ r, epollGetIdx t.clientFds 5 = some r ∧ ∀ call ∈ t.calls, call.1 = 5 → r = call.2 := by
  refine ⟨by decide, ?_⟩
  obtain ⟨t, hrun, -, -, -, hget⟩ :=
    @epoll_table_correct 3 (by decide) [7, 4, 5] (by decide) (by decide)
  obtain ⟨r, hr, hcall, -⟩ := hget 5 (by decide)
  exact ⟨t, hrun, r, hr, hcall⟩

end Linuxyz.TenK
