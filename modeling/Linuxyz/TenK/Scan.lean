import Mathlib.Data.List.Basic
import Mathlib.Data.List.Count
import Mathlib.Logic.Function.Iterate

/-!
# Linuxyz.TenK.Scan

One round of `run_select` and of `run_poll` in `var-ten-k`, once all `MAXCLIENT`
connections are accepted: the kernel reports which descriptors are ready and how
many (`event`), a connection at the listening socket is taken first, and then the
client slots are scanned in order.  The scan counts `event` down, leaves when it is
`0`, and reads each ready slot in a loop of its own.

Both functions have the same scan, so it is modelled once (`scanStep`) and each
round says which slots are ready and what `event` is at its start:

* `scanInv_run` — the loop invariant: `event` is never less than the number of ready
  slots not yet visited, and the slots whose read loop was started are the ready ones
  up to here;
* `scan_serves_iff` — from it, when the scan comes to every ready slot.
-/

namespace Linuxyz.TenK.Scan

/-- `MAXBUFFLEN`. -/
def maxBuffLen : Nat := 65536

/-- `FD_SETSIZE`: an `fd_set` has a bit for the descriptors below it. -/
def fdSetSize : Nat := 1024

/-! ## The scan -/

/-- What `read` returns: a number of bytes, which is `0` at the end of the stream, or
`-1` with `EAGAIN` or with another `errno`. -/
inductive Read where
  | bytes (n : Nat)
  | again
  | fatal
deriving DecidableEq, Repr

/-- Where the scan is: before slot `i`, in the read loop of slot `i` with `valread`
bytes from the `k` calls made, or behind the loop. -/
inductive Pc where
  | slot (i : Nat)
  | reading (i valread k : Nat)
  | done
deriving DecidableEq, Repr

structure State where
  pc : Pc
  event : Int
  keep : Bool
  /-- The slots on which a read loop was started, in order. -/
  started : List Nat
deriving DecidableEq, Repr

/-- One step of the scan of the slots `fds`.  `ready i` is the test made on slot `i`
and `reads i k` the result of the `k`-th `read` on it in this round. -/
def scanStep (fds : List Nat) (ready : Nat → Bool) (reads : Nat → Nat → Read) (s : State) : State :=
  match s.pc with
  | .slot i =>
    if fds.length ≤ i then { s with pc := .done }
    else if s.event = 0 then { s with pc := .done }
    else if fds[i]? = some 0 then { s with pc := .slot (i + 1) }
    else if ready i then
      { s with pc := .reading i 0 0, event := s.event - 1, started := s.started ++ [i] }
    else { s with pc := .slot (i + 1) }
  | .reading i valread k =>
    if valread < maxBuffLen then
      match reads i k with
      | .fatal => { s with pc := .slot (i + 1), keep := false }
      | .again => { s with pc := .slot (i + 1) }
      -- no test for `0`: at the end of the stream `valread` stays where it is
      | .bytes n => { s with pc := .reading i (valread + n) (k + 1) }
    else { s with pc := .slot (i + 1) }
  | .done => s

/-- The scan after `t` steps. -/
def scan (fds : List Nat) (ready : Nat → Bool) (reads : Nat → Nat → Read) (event : Int) (t : Nat) :
    State :=
  (scanStep fds ready reads)^[t] ⟨.slot 0, event, true, []⟩

/-! ## The two rounds -/

/-- What `accept` and `make_socket_non_blocking` do when the listening socket is ready. -/
inductive Accept where
  | failed
  | blocking
  | accepted (clientFd : Nat)
deriving DecidableEq, Repr

/-- The slots and `connections` after the `accept` part. -/
def acceptClient (fds : List Nat) (connections : Nat) : Accept → List Nat × Nat
  | .failed => (fds, connections)
  | .blocking => (fds, connections)
  | .accepted clientFd =>
    match fds.findIdx? (· == 0) with
    | some i => (fds.set i clientFd, connections + 1)
    -- "accept slot full"
    | none => (fds, connections)

/-- How a round goes on behind the `accept` part: the process is gone, the round is
over since connections are missing, or the slots `fds` are scanned. -/
inductive Round where
  | fault
  | skipped
  | scanned (fds : List Nat) (ready : Nat → Bool) (event : Int)

/-- Both functions from the answer of the kernel on: `listening` is the test on the
listening socket and `ready` the one on a slot's index and descriptor. -/
def afterWait (fds : List Nat) (connections maxClient : Nat) (listening : Bool)
    (ready : Nat → Nat → Bool) (event : Int) (accept : Accept) : Round :=
  let clients := if listening then acceptClient fds connections accept else (fds, connections)
  if clients.2 ≠ maxClient then .skipped
  else .scanned clients.1 (fun i => ready i (clients.1.getD i 0)) (if listening then
    event - 1 else event)

/-- `FD_SET` for each of the descriptors; one without a bit in the `fd_set` is out of
its range. -/
def fdSetAll : List Nat → Option (List Nat)
  | [] => some []
  | d :: ds => if d < fdSetSize then (fdSetAll ds).map (d :: ·) else none

/-- A round of `run_select`.  The kernel leaves in `readfds` the descriptors that are
ready, and `event` is their number. -/
def selectRound (fd : Nat) (fds : List Nat) (connections maxClient : Nat) (isReady : Nat → Bool)
    (accept : Accept) : Round :=
  match fdSetAll (fd :: fds.filter (0 < ·)) with
  | none => .fault
  | some asked =>
    let readfds := asked.filter isReady
    afterWait fds connections maxClient (readfds.contains fd) (fun _ d => readfds.contains d)
      readfds.length accept

/-- `revents & POLLIN`. -/
def pollIn (revents : BitVec 16) : Bool := revents &&& 1#16 ≠ 0#16

/-- A round of `run_poll`.  `event` is the number of entries with any bit in
`revents`; `revents₀` is that of the listening socket. -/
def pollRound (fds : List Nat) (connections maxClient : Nat) (revents₀ : BitVec 16)
    (revents : Nat → BitVec 16) (accept : Accept) : Round :=
  afterWait fds connections maxClient (pollIn revents₀) (fun i _ => pollIn (revents i))
    ((if revents₀ = 0#16 then 0 else 1) +
      ((List.range fds.length).countP (fun i => revents i ≠ 0#16) : Nat)) accept

/-- All connections are accepted: every slot has a descriptor, and no two of them or
the listening socket share one. -/
structure Clients where
  fd : Nat
  fds : List Nat
  pos : ∀ d ∈ fds, 0 < d
  nodup : (fd :: fds).Nodup

/-- The round comes to its scan, which sooner or later has started a read loop on
every slot that `ready` says is readable, and never starts one on another slot. -/
def Serves (reads : Nat → Nat → Read) (n : Nat) (ready : Nat → Bool) : Round → Prop
  | .fault => False
  | .skipped => False
  | .scanned fds test event =>
    (∃ t, ∀ i < n, ready i → i ∈ (scan fds test reads event t).started) ∧
      ∀ t, ∀ i ∈ (scan fds test reads event t).started, i < n ∧ ready i

/-! ## The connections before -/

/-- The slots are being filled: `connections` counts the taken ones, and their
descriptors and the listening one are distinct. -/
def Filling (fd : Nat) (fds : List Nat) (connections : Nat) : Prop :=
  (fds.filter (0 < ·)).length = connections ∧ (fd :: fds.filter (0 < ·)).Nodup

/-- What `accept` returns is positive and not among the open descriptors. -/
def Accept.Fresh (fd : Nat) (fds : List Nat) : Accept → Prop
  | .accepted clientFd => 0 < clientFd ∧ clientFd ≠ fd ∧ clientFd ∉ fds
  | _ => True

/-- A client that is accepted takes a free slot and is counted. -/
theorem acceptClient_filling {fd : Nat} {fds : List Nat} {connections : Nat} {accept : Accept}
    (hfresh : accept.Fresh fd fds) (h : Filling fd fds connections) :
    Filling fd (acceptClient fds connections accept).1 (acceptClient fds connections accept).2 := by
  cases accept with
  | failed => exact h
  | blocking => exact h
  | accepted clientFd =>
    obtain ⟨hpos, hfd, hnew⟩ := hfresh
    cases hfree : fds.findIdx? (· == 0) with
    | none => simpa only [acceptClient, hfree] using h
    | some i =>
      obtain ⟨hi, hzero, -⟩ := List.findIdx?_eq_some_iff_getElem.mp hfree
      have hcut : fds = fds.take i ++ 0 :: fds.drop (i + 1) := by
        rw [← beq_iff_eq.mp hzero, List.getElem_cons_drop, List.take_append_drop]
      have hset : fds.set i clientFd = fds.take i ++ clientFd :: fds.drop (i + 1) :=
        List.set_eq_take_append_cons_drop.trans (if_pos hi)
      have hperm : ((fds.set i clientFd).filter (0 < ·)).Perm (clientFd :: fds.filter (0 < ·)) := by
        rw [hset]
        conv_rhs => rw [hcut]
        simp [List.filter_append, hpos]
      have hnot : clientFd ∉ fds.filter (0 < ·) := fun hmem => hnew (List.mem_of_mem_filter hmem)
      obtain ⟨hcount, hdistinct⟩ := h
      obtain ⟨hfdnot, hnodup⟩ := List.nodup_cons.mp hdistinct
      simp only [acceptClient, hfree]
      refine ⟨?_, (hperm.cons fd).nodup_iff.mpr ?_⟩
      · rw [hperm.length_eq, List.length_cons, hcount]
      · refine List.nodup_cons.mpr ⟨?_, List.nodup_cons.mpr ⟨hnot, hnodup⟩⟩
        rw [List.mem_cons, not_or]
        exact ⟨hfd.symm, hfdnot⟩

/-- The slots and `connections` that the accepts of earlier rounds can lead to. -/
inductive Accepted (fd n : Nat) : List Nat → Nat → Prop
  | start : Accepted fd n (List.replicate n 0) 0
  | accept {fds : List Nat} {connections : Nat} (a : Accept) (hfresh : a.Fresh fd fds)
      (h : Accepted fd n fds connections) :
      Accepted fd n (acceptClient fds connections a).1 (acceptClient fds connections a).2

theorem acceptClient_length (fds : List Nat) (connections : Nat) (accept : Accept) :
    (acceptClient fds connections accept).1.length = fds.length := by
  cases accept with
  | failed => rfl
  | blocking => rfl
  | accepted clientFd =>
    rw [acceptClient]
    split
    · exact List.length_set
    · rfl

theorem Accepted.filling {fd n : Nat} {fds : List Nat} {connections : Nat}
    (h : Accepted fd n fds connections) : fds.length = n ∧ Filling fd fds connections := by
  induction h with
  | start => simp [Filling]
  | accept a hfresh _ ih =>
    exact ⟨(acceptClient_length _ _ _).trans ih.1, acceptClient_filling hfresh ih.2⟩

/-- Once `connections` is `MAXCLIENT` the slots are those of `Clients`. -/
theorem Accepted.clients {fd n : Nat} {fds : List Nat} (h : Accepted fd n fds n) :
    ∃ c : Clients, c.fd = fd ∧ c.fds = fds := by
  obtain ⟨hlen, hcount, hnodup⟩ := h.filling
  have hpos : ∀ d ∈ fds, 0 < d := fun d hd =>
    of_decide_eq_true (List.length_filter_eq_length_iff.mp (hcount.trans hlen.symm) d hd)
  have hall : fds.filter (0 < ·) = fds :=
    List.filter_eq_self.mpr fun d hd => decide_eq_true (hpos d hd)
  exact ⟨⟨fd, fds, hpos, hall ▸ hnodup⟩, rfl, rfl⟩

/-! ## The read loop of one slot -/

/-- The bytes of the first `k` calls. -/
def total (r : Nat → Read) : Nat → Nat
  | 0 => 0
  | k + 1 => total r k + match r k with
    | .bytes n => n
    | _ => 0

/-- The calls fill the buffer or one of them fails.  They do neither when the client
has closed its end and left fewer bytes than that. -/
def Ends (r : Nat → Read) : Prop :=
  ∃ k, maxBuffLen ≤ total r k ∨ r k = .again ∨ r k = .fatal

/-- Every ready slot with another one behind it has reads that come to an end. -/
def Released (reads : Nat → Nat → Read) (n : Nat) (ready : Nat → Bool) : Prop :=
  ∀ i j, i < j → j < n → ready i → ready j → Ends (reads i)

/-! ## The loop invariant -/

section Scanning

variable (fds : List Nat) (ready : Nat → Bool) (reads : Nat → Nat → Read)

/-- The ready slots before `i`. -/
def before (i : Nat) : List Nat := (List.range i).filter ready

/-- The number of ready slots from `i` on. -/
def ahead (i : Nat) : Nat := (List.range' i (fds.length - i)).countP ready

/-- The invariant of the scan; `extra` is what `event` counts beyond the ready slots. -/
def ScanInv (extra : Nat) (s : State) : Prop :=
  match s.pc with
  | .slot i =>
    i ≤ fds.length ∧ s.event = extra + ahead fds ready i ∧ s.started = before ready i ∧
      ∀ j ∈ s.started, Ends (reads j)
  | .reading i valread k =>
    i < fds.length ∧ ready i ∧ s.event = extra + ahead fds ready (i + 1) ∧
      s.started = before ready (i + 1) ∧
      valread = total (reads i) k ∧ ∀ j ∈ s.started, j ≠ i → Ends (reads j)
  | .done => s.started = before ready fds.length ∧ ∀ j ∈ s.started, Ends (reads j)

variable {fds ready reads}

theorem mem_before {i j : Nat} : j ∈ before ready i ↔ j < i ∧ ready j := by
  simp [before]

theorem before_succ_of_ready {i : Nat} (h : ready i) :
    before ready (i + 1) = before ready i ++ [i] := by
  simp [before, List.range_succ, h]

theorem before_succ_of_not_ready {i : Nat} (h : ¬ ready i) :
    before ready (i + 1) = before ready i := by
  simp [before, List.range_succ, h]

variable (ready) in
theorem ahead_eq {i : Nat} (hi : i < fds.length) :
    ahead fds ready i = ahead fds ready (i + 1) + if ready i then 1 else 0 := by
  have hlen : fds.length - i = (fds.length - (i + 1)) + 1 := by omega
  rw [ahead, hlen, List.range'_succ, List.countP_cons, ahead]

/-- With nothing ahead the ready slots so far are all of them. -/
theorem before_eq_of_ahead {i : Nat} (hi : i ≤ fds.length) (h : ahead fds ready i = 0) :
    before ready i = before ready fds.length := by
  have hnone : (List.range' i (fds.length - i)).filter ready = [] := by
    rw [List.filter_eq_nil_iff]
    exact fun j hj => List.countP_eq_zero.mp h j hj
  have hsplit : List.range fds.length = List.range i ++ List.range' i (fds.length - i) := by
    have hcut := @List.range'_append_1 0 i (fds.length - i)
    rw [Nat.zero_add, Nat.add_sub_cancel' hi] at hcut
    rw [List.range_eq_range', List.range_eq_range', hcut]
  rw [before, before, hsplit, List.filter_append, hnone, List.append_nil]

/-- What a step before a slot does. -/
theorem scanStep_slot (hfds : ∀ d ∈ fds, 0 < d) {s : State} {i : Nat} (hpc : s.pc = .slot i)
    (hi : i < fds.length) :
    (s.event = 0 ∧ scanStep fds ready reads s = { s with pc := .done }) ∨
      (ready i ∧ scanStep fds ready reads s =
        { s with pc := .reading i 0 0, event := s.event - 1, started := s.started ++ [i] }) ∨
      (¬ ready i ∧ scanStep fds ready reads s = { s with pc := .slot (i + 1) }) := by
  have hpos : fds[i]? ≠ some 0 := fun h0 => absurd (hfds 0 (List.mem_of_getElem? h0)) (by omega)
  simp only [scanStep, hpc, if_neg (Nat.not_le.mpr hi), if_neg hpos]
  by_cases hzero : s.event = 0
  · exact .inl ⟨hzero, if_pos hzero⟩
  · rw [if_neg hzero]
    by_cases hready : ready i
    · exact .inr (.inl ⟨hready, if_pos hready⟩)
    · exact .inr (.inr ⟨hready, if_neg hready⟩)

/-- What a step in a read loop does: it leaves the loop where the calls end, or makes one
more call. -/
theorem scanStep_reading {s : State} {i valread k : Nat} (hpc : s.pc = .reading i valread k) :
    ((maxBuffLen ≤ valread ∨ reads i k = .again ∨ reads i k = .fatal) ∧
        ∃ keep, scanStep fds ready reads s = ⟨.slot (i + 1), s.event, keep, s.started⟩) ∨
      ∃ n, valread < maxBuffLen ∧ reads i k = .bytes n ∧
        scanStep fds ready reads s = { s with pc := .reading i (valread + n) (k + 1) } := by
  simp only [scanStep, hpc]
  by_cases hmore : valread < maxBuffLen
  · rw [if_pos hmore]
    cases hr : reads i k with
    | fatal => exact .inl ⟨.inr (.inr rfl), false, rfl⟩
    | again => exact .inl ⟨.inr (.inl rfl), s.keep, rfl⟩
    | bytes n => exact .inr ⟨n, hmore, rfl, rfl⟩
  · exact .inl ⟨.inl (Nat.not_lt.mp hmore), s.keep, if_neg hmore⟩

/-- The scan at a slot: it starts the read loop there, goes on, or ends. -/
theorem scanInv_slot (hfds : ∀ d ∈ fds, 0 < d) {extra i : Nat} {s : State} (hpc : s.pc = .slot i)
    (h : ScanInv fds ready reads extra s) :
    ScanInv fds ready reads extra (scanStep fds ready reads s) := by
  rw [ScanInv, hpc] at h
  obtain ⟨hi, hevent, hstarted, hends⟩ := h
  by_cases hlast : fds.length ≤ i
  · have hi' : i = fds.length := Nat.le_antisymm hi hlast
    simp only [scanStep, hpc, if_pos hlast]
    exact ⟨hi' ▸ hstarted, hends⟩
  have hlt : i < fds.length := Nat.not_le.mp hlast
  have hahead := ahead_eq ready hlt
  obtain ⟨hzero, hstep⟩ | ⟨hready, hstep⟩ | ⟨hready, hstep⟩ :=
    @scanStep_slot fds ready reads hfds s i hpc hlt
  · -- the early exit: nothing counted is left, so nothing ready is
    have hnone : ahead fds ready i = 0 := by omega
    rw [hstep]
    exact ⟨hstarted.trans (before_eq_of_ahead hi hnone), hends⟩
  · rw [if_pos hready] at hahead
    have hevent' : s.event - 1 = extra + ahead fds ready (i + 1) := by omega
    have hstarted' : s.started ++ [i] = before ready (i + 1) := by
      rw [hstarted, before_succ_of_ready hready]
    have hends' : ∀ j ∈ s.started ++ [i], j ≠ i → Ends (reads j) := by
      intro j hj hji
      have hj' : j ∈ s.started ∨ j = i := by simpa using hj
      exact hends j (hj'.resolve_right hji)
    rw [hstep]
    exact ⟨hlt, hready, hevent', hstarted', rfl, hends'⟩
  · rw [if_neg hready] at hahead
    have hevent' : s.event = extra + ahead fds ready (i + 1) := by omega
    rw [hstep]
    exact ⟨hlt, hevent', hstarted.trans (before_succ_of_not_ready hready).symm, hends⟩

/-- A turn of the read loop of a slot. -/
theorem scanInv_reading {extra i valread k : Nat} {s : State} (hpc : s.pc = .reading i valread k)
    (h : ScanInv fds ready reads extra s) :
    ScanInv fds ready reads extra (scanStep fds ready reads s) := by
  rw [ScanInv, hpc] at h
  obtain ⟨hi, hready, hevent, hstarted, hread, hends⟩ := h
  obtain ⟨hstop, keep, hstep⟩ | ⟨n, -, hr, hstep⟩ :=
    @scanStep_reading fds ready reads s i valread k hpc
  · have hends' : ∀ j ∈ s.started, Ends (reads j) := by
      intro j hj
      by_cases hji : j = i
      · exact hji ▸ ⟨k, hread ▸ hstop⟩
      · exact hends j hj hji
    rw [hstep]
    exact ⟨hi, hevent, hstarted, hends'⟩
  · have hread' : valread + n = total (reads i) (k + 1) := by
      rw [total, hr, hread]
    rw [hstep]
    exact ⟨hi, hready, hevent, hstarted, hread', hends⟩

/-- One step of the scan. -/
theorem scanInv_step (hfds : ∀ d ∈ fds, 0 < d) {extra : Nat} {s : State}
    (h : ScanInv fds ready reads extra s) :
    ScanInv fds ready reads extra (scanStep fds ready reads s) := by
  cases hpc : s.pc with
  | slot i => exact scanInv_slot hfds hpc h
  | reading i valread k => exact scanInv_reading hpc h
  | done =>
    rw [scanStep, hpc]
    exact h

variable (fds ready reads) in
theorem scan_succ (event : Int) (t : Nat) :
    scan fds ready reads event (t + 1) = scanStep fds ready reads (scan fds ready reads event t) :=
  Function.iterate_succ_apply' _ _ _

variable (ready reads) in
theorem scanInv_run (hfds : ∀ d ∈ fds, 0 < d) (extra t : Nat) :
    ScanInv fds ready reads extra (scan fds ready reads (extra + ahead fds ready 0) t) := by
  induction t with
  | zero => exact ⟨Nat.zero_le _, rfl, rfl, fun j hj => absurd hj List.not_mem_nil⟩
  | succ t ih =>
    rw [scan_succ]
    exact scanInv_step hfds ih

/-! ## When the scan comes to every ready slot -/

/-- The slots started so far are the ready ones before some slot, and all but the last of
them have left their read loop. -/
theorem ScanInv.started {extra : Nat} {s : State} (h : ScanInv fds ready reads extra s) :
    ∃ c ≤ fds.length, s.started = before ready c ∧ ∀ j ∈ s.started, j + 1 < c → Ends (reads j) := by
  cases hpc : s.pc with
  | slot c =>
    rw [ScanInv, hpc] at h
    obtain ⟨hc, -, hstarted, hends⟩ := h
    exact ⟨c, hc, hstarted, fun j hj _ => hends j hj⟩
  | reading c valread k =>
    rw [ScanInv, hpc] at h
    obtain ⟨hc, -, -, hstarted, -, hends⟩ := h
    exact ⟨c + 1, hc, hstarted, fun j hj hlt => hends j hj (by omega)⟩
  | done =>
    rw [ScanInv, hpc] at h
    obtain ⟨hstarted, hends⟩ := h
    exact ⟨fds.length, Nat.le_refl _, hstarted, fun j hj _ => hends j hj⟩

theorem started_of_scanInv {extra : Nat} {s : State} (h : ScanInv fds ready reads extra s) :
    ∀ i ∈ s.started, i < fds.length ∧ ready i := by
  obtain ⟨c, hc, hstarted, -⟩ := h.started
  intro i hi
  obtain ⟨hic, hready⟩ := mem_before.mp (hstarted ▸ hi)
  exact ⟨by omega, hready⟩

/-- A slot behind which another one was started has left its read loop. -/
theorem ends_of_scanInv {extra : Nat} {s : State} (h : ScanInv fds ready reads extra s) {i j : Nat}
    (hij : i < j) (hi : ready i) (hj : j ∈ s.started) : Ends (reads i) := by
  obtain ⟨c, -, hstarted, hends⟩ := h.started
  have hjc : j < c := (mem_before.mp (hstarted ▸ hj)).1
  have hi' : i ∈ s.started := hstarted ▸ mem_before.mpr ⟨by omega, hi⟩
  exact hends i hi' (by omega)

/-- A read loop whose calls end is left.  The induction is on the calls up to the one
that ends it. -/
theorem leaves_reading {event : Int} {i stop : Nat}
    (hstop : maxBuffLen ≤ total (reads i) stop ∨ reads i stop = .again ∨ reads i stop = .fatal)
    (left : Nat) :
    ∀ {t k : Nat}, k + left = stop →
      (scan fds ready reads event t).pc = .reading i (total (reads i) k) k →
      ∃ t', (scan fds ready reads event t').pc = .slot (i + 1) := by
  induction left with
  | zero =>
    intro t k hk hpc
    have hk' : k = stop := hk
    subst hk'
    obtain ⟨-, keep, hstep⟩ | ⟨n, hmore, hr, -⟩ := @scanStep_reading fds ready reads _ _ _ _ hpc
    · exact ⟨t + 1, by rw [scan_succ, hstep]⟩
    · rw [hr] at hstop
      obtain hfull | hagain | hfatal := hstop
      · exact absurd hmore (Nat.not_lt.mpr hfull)
      · cases hagain
      · cases hfatal
  | succ left ih =>
    intro t k hk hpc
    obtain ⟨-, keep, hstep⟩ | ⟨n, -, hr, hstep⟩ := @scanStep_reading fds ready reads _ _ _ _ hpc
    · exact ⟨t + 1, by rw [scan_succ, hstep]⟩
    · apply @ih (t + 1) (k + 1) (by omega)
      rw [scan_succ, hstep, total, hr]

/-- The scan comes to slot `i`, unless it has started every ready slot before. -/
theorem comes_to_slot (hfds : ∀ d ∈ fds, 0 < d) (extra : Nat)
    (hrel : Released reads fds.length ready) {i : Nat} (hi : i ≤ fds.length) :
    (∃ t, (scan fds ready reads (extra + ahead fds ready 0) t).pc = .slot i) ∨
      ∃ t, ∀ j < fds.length, ready j →
        j ∈ (scan fds ready reads (extra + ahead fds ready 0) t).started := by
  induction i with
  | zero => exact .inl ⟨0, rfl⟩
  | succ i ih =>
    have hlt : i < fds.length := hi
    obtain ⟨t, hpc⟩ | hall := ih (Nat.le_of_lt hlt)
    case inr => exact .inr hall
    have hinv := scanInv_run ready reads hfds extra (t + 1)
    obtain ⟨-, hstep⟩ | ⟨hready, hstep⟩ | ⟨-, hstep⟩ :=
      @scanStep_slot fds ready reads hfds _ i hpc hlt
    · have hnext := (scan_succ fds ready reads _ t).trans hstep
      rw [hnext] at hinv
      refine .inr ⟨t + 1, fun j hj hready => ?_⟩
      rw [hnext]
      exact hinv.1 ▸ mem_before.mpr ⟨hj, hready⟩
    · have hnext := (scan_succ fds ready reads _ t).trans hstep
      by_cases hlater : ∃ j, i < j ∧ j < fds.length ∧ ready j
      · obtain ⟨j, hij, hj, hreadyj⟩ := hlater
        obtain ⟨stop, hstop⟩ := hrel i j hij hj hready hreadyj
        have hpc' : (scan fds ready reads (extra + ahead fds ready 0) (t + 1)).pc =
            .reading i (total (reads i) 0) 0 := by
          rw [hnext]
          rfl
        exact .inl (leaves_reading hstop stop (Nat.zero_add stop) hpc')
      · rw [hnext] at hinv
        obtain ⟨-, -, -, hstarted, -, -⟩ := hinv
        refine .inr ⟨t + 1, fun j hj hreadyj => ?_⟩
        have hji : j < i + 1 := by
          by_contra hgt
          exact hlater ⟨j, by omega, hj, hreadyj⟩
        rw [hnext]
        exact hstarted ▸ mem_before.mpr ⟨hji, hreadyj⟩
    · exact .inl ⟨t + 1, by rw [scan_succ, hstep]⟩

/-- The scan serves every ready slot exactly if each of them that has one behind it lets
go of its read loop. -/
theorem scan_serves_iff (hfds : ∀ d ∈ fds, 0 < d) (extra : Nat) :
    Serves reads fds.length ready (.scanned fds ready (extra + ahead fds ready 0)) ↔
      Released reads fds.length ready := by
  constructor
  · rintro ⟨⟨t, hall⟩, -⟩ i j hij hj hreadyi hreadyj
    exact ends_of_scanInv (scanInv_run ready reads hfds extra t) hij hreadyi (hall j hj hreadyj)
  · intro hrel
    refine ⟨?_, fun t => started_of_scanInv (scanInv_run ready reads hfds extra t)⟩
    obtain ⟨t, hpc⟩ | hall := comes_to_slot hfds extra hrel (Nat.le_refl fds.length)
    · have hinv := scanInv_run ready reads hfds extra t
      rw [ScanInv, hpc] at hinv
      exact ⟨t, fun j hj hready => hinv.2.2.1 ▸ mem_before.mpr ⟨hj, hready⟩⟩
    · exact hall

end Scanning

/-- Only the test on the slots that there are matters. -/
theorem Serves.congr {reads : Nat → Nat → Read} {n : Nat} {ready ready' : Nat → Bool}
    (h : ∀ i < n, ready i = ready' i)
    (r : Round) : Serves reads n ready r ↔ Serves reads n ready' r := by
  cases r with
  | fault => exact Iff.rfl
  | skipped => exact Iff.rfl
  | scanned fds test event =>
    refine and_congr (exists_congr fun t => forall₂_congr fun i hi => ?_)
      (forall_congr' fun t => forall₂_congr fun i _ => and_congr_right fun hi => ?_)
    · rw [h i hi]
    · rw [h i hi]

theorem Released.congr {reads : Nat → Nat → Read} {n : Nat} {ready ready' : Nat → Bool}
    (h : ∀ i < n, ready i = ready' i) : Released reads n ready ↔ Released reads n ready' := by
  refine forall₂_congr fun i j => forall₂_congr fun hij hj => ?_
  rw [h i (by omega), h j hj]

/-! ## What the rounds hand to the scan -/

theorem ahead_zero (fds : List Nat) (ready : Nat → Bool) :
    ahead fds ready 0 = (List.range fds.length).countP ready := by
  rw [ahead, Nat.sub_zero, List.range_eq_range']

/-- With every slot taken an accepted connection changes nothing. -/
theorem acceptClient_full {fds : List Nat} (hfds : ∀ d ∈ fds, 0 < d) (connections : Nat)
    (accept : Accept) : acceptClient fds connections accept = (fds, connections) := by
  cases accept with
  | failed => rfl
  | blocking => rfl
  | accepted clientFd =>
    have hnone : fds.findIdx? (· == 0) = none := by
      rw [List.findIdx?_eq_none_iff]
      intro d hd
      have := hfds d hd
      simpa using Nat.ne_of_gt this
    rw [acceptClient, hnone]

/-- With all slots taken nobody is accepted, and the scan starts. -/
theorem afterWait_full {fds : List Nat} (hfds : ∀ d ∈ fds, 0 < d) (listening : Bool)
    (ready : Nat → Nat → Bool) (event : Int) (accept : Accept) :
    afterWait fds fds.length fds.length listening ready event accept =
      .scanned fds (fun i => ready i (fds.getD i 0)) (if listening then event - 1 else event) := by
  have hclients : (if listening then acceptClient fds fds.length accept else (fds, fds.length)) =
      (fds, fds.length) := by
    rw [acceptClient_full hfds]
    exact ite_self _
  simp only [afterWait, hclients, ne_eq, not_true_eq_false, if_false]

theorem fdSetAll_eq (ds : List Nat) :
    fdSetAll ds = if ∀ d ∈ ds, d < fdSetSize then some ds else none := by
  induction ds with
  | nil => simp [fdSetAll]
  | cons d ds ih => grind [fdSetAll]

theorem Clients.filter_pos (c : Clients) : c.fds.filter (0 < ·) = c.fds := by
  rw [List.filter_eq_self]
  exact fun d hd => decide_eq_true (c.pos d hd)

theorem countP_range_getD (l : List Nat) (p : Nat → Bool) :
    (List.range l.length).countP (fun i => p (l.getD i 0)) = l.countP p := by
  have hl : (List.range l.length).map (fun i => l.getD i 0) = l := by
    apply List.ext_getElem
    · simp
    · intro i h₁ h₂
      simp [List.getD_eq_getElem?_getD, List.getElem?_eq_getElem h₂]
  conv_rhs => rw [← hl, List.countP_map]
  rfl

/-- The slots that `select` reports. -/
def selectReady (fds : List Nat) (isReady : Nat → Bool) (i : Nat) : Bool := isReady (fds.getD i 0)

/-- The listening socket is taken off `event` if and only if it is counted in it, so the
scan starts with the number of ready slots. -/
theorem selectRound_eq (c : Clients) (isReady : Nat → Bool) (accept : Accept)
    (hrange : ∀ d ∈ c.fd :: c.fds, d < fdSetSize) :
    ∃ test, (∀ i < c.fds.length, selectReady c.fds isReady i = test i) ∧
      selectRound c.fd c.fds c.fds.length c.fds.length isReady accept =
        .scanned c.fds test ((0 : Nat) + ahead c.fds test 0) := by
  have hround : selectRound c.fd c.fds c.fds.length c.fds.length isReady accept =
      afterWait c.fds c.fds.length c.fds.length (((c.fd :: c.fds).filter isReady).contains c.fd)
        (fun _ d => ((c.fd :: c.fds).filter isReady).contains d)
        (((c.fd :: c.fds).filter isReady).length : Nat) accept := by
    rw [selectRound, c.filter_pos, fdSetAll_eq, if_pos hrange]
  have hevent : (if ((c.fd :: c.fds).filter isReady).contains c.fd
      then ((((c.fd :: c.fds).filter isReady).length : Nat) : Int) - 1
      else (((c.fd :: c.fds).filter isReady).length : Nat)) = (c.fds.countP isReady : Nat) := by
    have hnot : c.fd ∉ c.fds := (List.nodup_cons.mp c.nodup).1
    rw [List.countP_eq_length_filter]
    by_cases hfd : isReady c.fd
    · simp [hfd]
    · simp [hfd, hnot]
  have htest : ∀ i < c.fds.length,
      selectReady c.fds isReady i = ((c.fd :: c.fds).filter isReady).contains (c.fds.getD i 0) := by
    intro i hi
    have hmem : c.fds.getD i 0 ∈ c.fd :: c.fds := by
      rw [List.getD_eq_getElem?_getD, List.getElem?_eq_getElem hi]
      exact List.mem_cons_of_mem _ (List.getElem_mem hi)
    rw [selectReady, Bool.eq_iff_iff, List.contains_iff_mem, List.mem_filter]
    exact ⟨fun h => ⟨hmem, h⟩, fun h => h.2⟩
  refine ⟨_, htest, ?_⟩
  have hcount : c.fds.countP isReady = ahead c.fds
      (fun i => ((c.fd :: c.fds).filter isReady).contains (c.fds.getD i 0)) 0 := by
    rw [ahead_zero, ← countP_range_getD]
    exact List.countP_congr fun i hi => Bool.eq_iff_iff.mp (htest i (List.mem_range.mp hi))
  rw [hround, afterWait_full c.pos, hevent, hcount, Int.natCast_zero, Int.zero_add]

theorem selectRound_fault (c : Clients) (isReady : Nat → Bool) (accept : Accept)
    (hrange : ¬ ∀ d ∈ c.fd :: c.fds, d < fdSetSize) :
    selectRound c.fd c.fds c.fds.length c.fds.length isReady accept = .fault := by
  rw [selectRound, c.filter_pos, fdSetAll_eq, if_neg hrange]

/-- A round of `select`, by the descriptors and the reads. -/
theorem select_serves_iff (c : Clients) (reads : Nat → Nat → Read) (isReady : Nat → Bool)
    (accept : Accept) :
    Serves reads c.fds.length (selectReady c.fds isReady)
        (selectRound c.fd c.fds c.fds.length c.fds.length isReady accept) ↔
      (∀ d ∈ c.fd :: c.fds, d < fdSetSize) ∧
        Released reads c.fds.length (selectReady c.fds isReady) := by
  by_cases hrange : ∀ d ∈ c.fd :: c.fds, d < fdSetSize
  · obtain ⟨test, htest, hround⟩ := selectRound_eq c isReady accept hrange
    rw [hround, Serves.congr htest, scan_serves_iff c.pos 0, Released.congr htest]
    exact (and_iff_right hrange).symm
  · rw [selectRound_fault c isReady accept hrange]
    exact ⟨fun h => h.elim, fun h => absurd h.1 hrange⟩

/-- An entry with other bits than `POLLIN` is counted and never taken off, so `event`
may start above the number of ready slots. -/
theorem pollRound_eq (c : Clients) (revents₀ : BitVec 16) (revents : Nat → BitVec 16)
    (accept : Accept) :
    ∃ extra : Nat, pollRound c.fds c.fds.length c.fds.length revents₀ revents accept =
      .scanned c.fds (fun i => pollIn (revents i))
      (extra + ahead c.fds (fun i => pollIn (revents i)) 0) := by
  have hset (r : BitVec 16) (h : pollIn r) : r ≠ 0#16 := by
    rintro rfl
    exact absurd h (by decide)
  have hle : ahead c.fds (fun i => pollIn (revents i)) 0 ≤
      (List.range c.fds.length).countP (fun i => revents i ≠ 0#16) := by
    rw [ahead_zero]
    exact List.countP_mono_left fun i _ h => decide_eq_true (hset _ h)
  obtain ⟨others, hothers⟩ := Nat.exists_eq_add_of_le hle
  rw [pollRound, afterWait_full c.pos, hothers]
  by_cases hin : pollIn revents₀
  · refine ⟨others, ?_⟩
    rw [if_pos hin, if_neg (hset revents₀ hin)]
    congr 1
    omega
  · refine ⟨others + if revents₀ = 0#16 then 0 else 1, ?_⟩
    rw [if_neg hin]
    congr 1
    split <;> omega

theorem poll_serves_iff (c : Clients) (reads : Nat → Nat → Read) (revents₀ : BitVec 16)
    (revents : Nat → BitVec 16) (accept : Accept) :
    Serves reads c.fds.length (fun i => pollIn (revents i))
        (pollRound c.fds c.fds.length c.fds.length revents₀ revents accept) ↔
      Released reads c.fds.length (fun i => pollIn (revents i)) := by
  obtain ⟨extra, hround⟩ := pollRound_eq c revents₀ revents accept
  rw [hround]
  exact scan_serves_iff c.pos extra

/-! ## Every ready client is served -/

/-- A round of either function serves every ready client and no other if and only if
the reads of each ready slot before another ready one come to an end and, for
`select`, every descriptor has a bit in the `fd_set`. -/
theorem ready_clients_served_iff (c : Clients) (reads : Nat → Nat → Read) (accept : Accept)
    (isReady : Nat → Bool) (revents₀ : BitVec 16) (revents : Nat → BitVec 16) :
    (Serves reads c.fds.length (selectReady c.fds isReady)
          (selectRound c.fd c.fds c.fds.length c.fds.length isReady accept) ↔
        (∀ d ∈ c.fd :: c.fds, d < fdSetSize) ∧
          Released reads c.fds.length (selectReady c.fds isReady)) ∧
      (Serves reads c.fds.length (fun i => pollIn (revents i))
          (pollRound c.fds c.fds.length c.fds.length revents₀ revents accept) ↔
        Released reads c.fds.length (fun i => pollIn (revents i))) :=
  ⟨select_serves_iff c reads isReady accept, poll_serves_iff c reads revents₀ revents accept⟩

/-- A client that has closed its connection holds up the ready client behind it, in
both functions; and with a descriptor of `1024` the round of `run_select` does not
come to its scan. -/
theorem ready_client_skipped :
    (¬ Serves (fun _ _ => .bytes 0) 2 (selectReady [4, 5] fun d => d == 4 || d == 5)
        (selectRound 3 [4, 5] 2 2 (fun d => d == 4 || d == 5) .failed)) ∧
      (¬ Serves (fun _ _ => .bytes 0) 2 (fun _ => pollIn 1#16)
        (pollRound [4, 5] 2 2 0#16 (fun _ => 1#16) .failed)) ∧
      ¬ Serves (fun _ _ => .again) 1 (selectReady [1024] fun d => d == 1024)
        (selectRound 3 [1024] 1 1 (fun d => d == 1024) .failed) := by
  have hclosed : ¬ Ends fun _ => .bytes 0 := by
    have htotal (k : Nat) : total (fun _ => .bytes 0) k = 0 := by
      induction k with
      | zero => rfl
      | succ k ih => exact ih
    rintro ⟨k, hfull | hagain | hfatal⟩
    · rw [htotal] at hfull
      exact absurd hfull (by decide)
    · cases hagain
    · cases hfatal
  refine ⟨fun h => ?_, fun h => ?_, fun h => h⟩
  · have hrel := (select_serves_iff ⟨3, [4, 5], by decide, by decide⟩ _ _ .failed).mp h
    exact hclosed (hrel.2 0 1 (by decide) (by decide) (by decide) (by decide))
  · have hrel :=
      (poll_serves_iff ⟨3, [4, 5], by decide, by decide⟩ _ 0#16 (fun _ => 1#16) .failed).mp h
    exact hclosed (hrel 0 1 (by decide) (by decide) (by decide) (by decide))

end Linuxyz.TenK.Scan
