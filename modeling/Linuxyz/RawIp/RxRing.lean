import Linuxyz.Lib.Counting
import Linuxyz.RawIp.TxRing

/-!
# Linuxyz.RawIp.RxRing

The receive ring of `dev-sock-raw-mmap-packet-ip`: `do_serve` of `server.c` with `process_rx`,
`process_rx_release` and `rx_flush`, beside the kernel that fills the two frames in turn.

`process_rx` looks for a packet from the first frame on, not from where the kernel is.  A
packet can so be overtaken by the one behind it, but by no other (`rx_once`).  `rx_flush`
gives all frames back, also those that have been filled since `process_rx` has looked at
them: what is in the ring then is never seen (`rx_flush_loses`), and nothing else is lost
(`rx_lossless_of_quiet`).
-/

namespace Linuxyz.RawIp.RxRing

open TxRing (Slot ringFrames)

/-! ## The ring -/

/-- `TP_STATUS_USER` -/
def tpStatusUser : Nat := 1

/-- `TP_STATUS_COPY` -/
def tpStatusCopy : Nat := 2

/-- `TP_STATUS_KERNEL`, which is also `TP_STATUS_AVAILABLE` -/
def tpStatusKernel : Nat := 0

structure Frame where
  /-- `tp_status` -/
  status : Nat
  /-- the bytes from `RX_DATA_OFFSET` on, as far as the kernel has written them -/
  packet : List UInt8
  /-- how many packets had come before -/
  seq : Nat
deriving DecidableEq, Repr

/-- Where the server is in `do_serve`. -/
inductive Pc where
  /-- in `process_rx`, at frame `i` -/
  | scan (i : Slot)
  /-- at `view_ip_packet` -/
  | view (i : Slot)
  /-- in `process_rx_release` -/
  | release (i : Slot)
  /-- in `rx_flush`, at frame `i` -/
  | flush (i : Slot)
deriving DecidableEq, Repr

structure Sys where
  frames : Slot → Frame
  /-- the frame that the kernel fills next -/
  head : Slot
  /-- the packets that the kernel has put in the ring -/
  delivered : List (List UInt8)
  /-- how many packets have found the ring full -/
  dropped : Nat
  pc : Pc
  needsFlush : Bool
  count : Nat
  /-- the packets that `view_ip_packet` has been called with, with their numbers -/
  viewed : List (Nat × List UInt8)
  /-- the numbers of those that `rx_flush` has given back -/
  flushed : List Nat

def Sys.status (s : Sys) (i : Slot) : Nat := (s.frames i).status

/-- A store to `tp_status`. -/
def Sys.setStatus (s : Sys) (i : Slot) (st : Nat) : Sys :=
  { s with frames := Function.update s.frames i { s.frames i with status := st } }

/-! ## Steps -/

/-- Behind the last frame `process_rx` returns NULL, and the ring is flushed if a packet has
been seen since the last time. -/
def scanNext (s : Sys) (i : Slot) : Sys :=
  if h : i.val + 1 < ringFrames then { s with pc := .scan ⟨i.val + 1, h⟩ }
  else { s with pc := if s.needsFlush then .flush 0 else .scan 0 }

def flushNext (s : Sys) (i : Slot) : Sys :=
  if h : i.val + 1 < ringFrames then { s with pc := .flush ⟨i.val + 1, h⟩ }
  else { s with pc := .scan 0, needsFlush := false }

/-- One statement of `do_serve`. -/
def serverStep (s : Sys) : Sys :=
  match s.pc with
  | .scan i =>
      if s.status i &&& tpStatusUser ≠ 0 then
        if s.status i &&& tpStatusCopy ≠ 0 then scanNext s i else { s with pc := .view i }
      else scanNext s i
  | .view i =>
      { s with viewed := s.viewed ++ [((s.frames i).seq, (s.frames i).packet)], pc := .release i }
  | .release i =>
      { s.setStatus i tpStatusKernel with needsFlush := true, count := s.count + 1, pc := .scan 0 }
  | .flush i =>
      let flushed :=
        if s.status i = tpStatusKernel then s.flushed else s.flushed ++ [(s.frames i).seq]
      flushNext { s.setStatus i tpStatusKernel with flushed := flushed } i

/-- The kernel puts a packet into the frame at its position, if that is free. -/
def deliver (s : Sys) (packet : List UInt8) (flags : Nat) : Sys :=
  if s.status s.head = tpStatusKernel then
    { s with
      frames := Function.update s.frames s.head ⟨flags ||| tpStatusUser, packet, s.delivered.length⟩
      head := s.head.next
      delivered := s.delivered ++ [packet] }
  else { s with dropped := s.dropped + 1 }

inductive Act where
  | server
  | deliver (packet : List UInt8) (flags : Nat)
deriving DecidableEq, Repr

def step (s : Sys) : Act → Sys
  | .server => serverStep s
  | .deliver packet flags => deliver s packet flags

/-- The ring when it is mapped, all zero. -/
def start : Sys where
  frames _ := ⟨tpStatusKernel, [], 0⟩
  head := 0
  delivered := []
  dropped := 0
  pc := .scan 0
  needsFlush := false
  count := 0
  viewed := []
  flushed := []

/-- The server and the kernel. -/
def ring : System Sys Act where
  init s := s = start
  step s a := some (step s a)

/-- Frame `i` has a packet that is still to be seen. -/
def Sys.Waits (s : Sys) (i : Slot) : Prop := s.status i ≠ tpStatusKernel ∧ s.pc ≠ .release i

instance (s : Sys) (i : Slot) : Decidable (s.Waits i) := inferInstanceAs (Decidable (_ ∧ _))

/-- The numbers of the packets in the ring that are still to be seen. -/
def Sys.pending (s : Sys) : List Nat :=
  ((List.finRange ringFrames).filter fun i => decide (s.Waits i)).map fun i => (s.frames i).seq

variable {s s' : Sys} {i j : Slot} {k : Nat}

/-! ## What a step does -/

theorem status_setStatus (s : Sys) (i j : Slot) (st : Nat) :
    (s.setStatus i st).status j = if j = i then st else s.status j := by
  change (Function.update s.frames i { s.frames i with status := st } j).status = _
  rw [Function.update_apply]
  split <;> rfl

@[simp] theorem seq_setStatus (s : Sys) (i j : Slot) (st : Nat) :
    ((s.setStatus i st).frames j).seq = (s.frames j).seq := by
  change (Function.update s.frames i { s.frames i with status := st } j).seq = _
  rw [Function.update_apply]
  split
  · next h => rw [h]
  · rfl

@[simp] theorem packet_setStatus (s : Sys) (i j : Slot) (st : Nat) :
    ((s.setStatus i st).frames j).packet = (s.frames j).packet := by
  change (Function.update s.frames i { s.frames i with status := st } j).packet = _
  rw [Function.update_apply]
  split
  · next h => rw [h]
  · rfl

/-- In `process_rx` or in `rx_flush`, or at `view_ip_packet` with a frame that is filled. -/
def Sys.At (s : Sys) : Pc → Prop
  | .view i => s.status i ≠ tpStatusKernel
  | .release _ => False
  | _ => True

inductive Effect (s : Sys) : Sys → Prop where
  | move {i : Slot} {pc : Pc} (hfrom : s.pc = .scan i) (hpc : s.At pc) :
      Effect s { s with pc := pc }
  | view {i : Slot} (hpc : s.pc = .view i) :
      Effect s { s with
        viewed := s.viewed ++ [((s.frames i).seq, (s.frames i).packet)], pc := .release i }
  | release {i : Slot} (hpc : s.pc = .release i) :
      Effect s { s.setStatus i tpStatusKernel with
        needsFlush := true, count := s.count + 1, pc := .scan 0 }
  | flush {i : Slot} {pc : Pc} (needsFlush : Bool) (hfrom : s.pc = .flush i)
      (hpc : (¬i.val + 1 < ringFrames ∧ pc = .scan 0) ∨ ∃ j, j.val = i.val + 1 ∧ pc = .flush j) :
      Effect s { s.setStatus i tpStatusKernel with
        pc := pc
        needsFlush := needsFlush
        flushed :=
          if s.status i = tpStatusKernel then s.flushed else s.flushed ++ [(s.frames i).seq] }
  | deliver {packet : List UInt8} {flags : Nat} (hfree : s.status s.head = tpStatusKernel) :
      Effect s { s with
        frames := Function.update s.frames s.head ⟨flags ||| tpStatusUser, packet,
          s.delivered.length⟩
        head := s.head.next
        delivered := s.delivered ++ [packet] }
  | drop : Effect s { s with dropped := s.dropped + 1 }

theorem effect_scanNext (hfrom : s.pc = .scan i) : Effect s (scanNext s i) := by
  unfold scanNext
  split
  · exact .move hfrom trivial
  · refine .move hfrom ?_
    cases s.needsFlush <;> trivial

/-- Every statement of the server has one of the effects. -/
theorem effect_serverStep (s : Sys) : Effect s (serverStep s) := by
  unfold serverStep
  split
  · next i hpc =>
      split
      · next huser =>
          split
          · exact effect_scanNext hpc
          · refine .move hpc fun hkernel => huser ?_
            rw [hkernel]
            rfl
      · exact effect_scanNext hpc
  · next i hpc => exact .view hpc
  · next i hpc => exact .release hpc
  · next i hpc =>
      simp only [flushNext]
      split
      · exact .flush _ hpc (.inr ⟨_, rfl, rfl⟩)
      · next hlast => exact .flush _ hpc (.inl ⟨hlast, rfl⟩)

theorem effect_step (s : Sys) (a : Act) : Effect s (step s a) := by
  cases a with
  | server => exact effect_serverStep s
  | deliver packet flags =>
      simp only [step, deliver]
      split
      · next hfree => exact .deliver hfree
      · exact .drop

/-! ## The packets in the ring -/

/-- The same frames wait, with the same packets. -/
theorem pending_congr (hwaits : ∀ i, s'.Waits i ↔ s.Waits i)
    (hseq : ∀ i, (s'.frames i).seq = (s.frames i).seq) : s'.pending = s.pending := by
  simp only [Sys.pending, hwaits, hseq]

/-- A frame with packet `k` waits in `s` and not in `s'`. -/
theorem pending_perm_cons (hi : s.Waits i) (hi' : ¬s'.Waits i)
    (hwaits : ∀ j, j ≠ i → (s'.Waits j ↔ s.Waits j))
    (hseq : ∀ j, s.Waits j → j ≠ i → (s'.frames j).seq = (s.frames j).seq) :
    s.pending.Perm ((s.frames i).seq :: s'.pending) := by
  have hfilter := filter_perm_cons (List.nodup_finRange ringFrames) (List.mem_finRange i)
    (p := fun i => decide (s.Waits i)) (q := fun i => decide (s'.Waits i)) (by simpa using hi)
      (by simpa using hi')
    fun j _ hj => by rw [decide_eq_decide]; exact hwaits j hj
  refine (hfilter.map fun i => (s.frames i).seq).trans ?_
  rw [List.map_cons, Sys.pending]
  refine .cons _ (.of_eq (List.map_congr_left fun j hj => ?_))
  have hj' : s'.Waits j := by simpa using (List.mem_filter.mp hj).2
  have hne : j ≠ i := fun h => hi' (h ▸ hj')
  exact (hseq j ((hwaits j hne).mp hj') hne).symm

/-! ## The invariant -/

/-- The numbers of the packets that have been seen. -/
def Sys.seen (s : Sys) : List Nat := s.viewed.map Prod.fst

/-- A filled frame has the last packet that has come to it. -/
structure Filled (s : Sys) (i : Slot) : Prop where
  lt : (s.frames i).seq < s.delivered.length
  last : s.delivered.length ≤ (s.frames i).seq + ringFrames
  slot : (s.frames i).seq % ringFrames = i.val
  packet : s.delivered[(s.frames i).seq]? = some (s.frames i).packet

structure Inv (s : Sys) : Prop where
  head : s.head.val = s.delivered.length % ringFrames
  filled : ∀ i, s.status i ≠ tpStatusKernel → Filled s i
  places : (s.seen ++ s.flushed ++ s.pending).Perm (List.range s.delivered.length)
  order : s.seen.Pairwise fun a b => a ≤ b + 1
  packets : ∀ v ∈ s.viewed, s.delivered[v.1]? = some v.2
  pc : ∀ i, s.pc = .view i ∨ s.pc = .release i → s.status i ≠ tpStatusKernel

theorem inv_start : Inv start where
  head := rfl
  filled _ h := absurd rfl h
  places := .of_eq (by decide)
  order := .nil
  packets _ h := absurd h List.not_mem_nil
  pc i h := by rcases h with h | h <;> cases h

/-- Nothing that has been seen is more than one ahead of a packet that waits. -/
theorem Inv.seen_le (h : Inv s) (hi : s.status i ≠ tpStatusKernel) {a : Nat} (ha : a ∈ s.seen) :
    a ≤ (s.frames i).seq + 1 := by
  have hlt : a < s.delivered.length := by
    rw [← List.mem_range, ← h.places.mem_iff]
    exact List.mem_append_left _ (List.mem_append_left _ ha)
  have hlast := (h.filled i hi).last
  change s.delivered.length ≤ _ + 2 at hlast
  omega

/-- A frame given back leaves the others filled. -/
theorem Inv.filled_setStatus (h : Inv s)
    (hj : (s.setStatus i tpStatusKernel).status j ≠ tpStatusKernel) :
    Filled (s.setStatus i tpStatusKernel) j := by
  rw [status_setStatus] at hj
  split at hj
  · exact absurd rfl hj
  · have hfilled := h.filled j hj
    refine ⟨?_, ?_, ?_, ?_⟩
    all_goals simp only [seq_setStatus, packet_setStatus]
    exacts [hfilled.lt, hfilled.last, hfilled.slot, hfilled.packet]

/-- The scan goes on without changing the ring. -/
theorem Inv.move (h : Inv s) {pc : Pc} (hfrom : s.pc = .scan i) (hpc : s.At pc) :
    Inv { s with pc := pc } := by
  have hto : ∀ i, pc ≠ .release i := fun i hi => by rw [hi] at hpc; exact hpc
  have hpending : Sys.pending { s with pc := pc } = s.pending :=
    pending_congr (fun i => and_congr_right fun _ => iff_of_true (hto i) (by simp [hfrom]))
      fun _ => rfl
  exact
    { head := h.head
      filled := fun i hi => { h.filled i hi with }
      places := hpending ▸ h.places
      order := h.order
      packets := h.packets
      pc := by
        rintro i (hi | hi)
        · change pc = _ at hi
          rw [hi] at hpc
          exact hpc
        · exact absurd hi (hto i) }

/-- The server sees the packet of the frame at which the scan has stopped. -/
theorem Inv.view (h : Inv s) (hpc : s.pc = .view i) :
    Inv { s with
      viewed := s.viewed ++ [((s.frames i).seq, (s.frames i).packet)], pc := .release i } := by
  have hi := h.pc i (.inl hpc)
  have hwaits : s.Waits i := ⟨hi, by simp [hpc]⟩
  have hpending : s.pending.Perm ((s.frames i).seq :: Sys.pending { s with
      viewed := s.viewed ++ [((s.frames i).seq, (s.frames i).packet)], pc := .release i }) := by
    refine pending_perm_cons hwaits (fun h => h.2 rfl) (fun j hj => and_congr_right fun _ => ?_)
      fun _ _ _ => rfl
    exact iff_of_true (fun heq => hj (Pc.release.inj heq).symm) (by simp [hpc])
  exact
    { head := h.head
      filled := fun j hj => { h.filled j hj with }
      places := by
        refine List.Perm.trans ?_ h.places
        refine .trans ?_ (hpending.symm.append_left _)
        simp only [Sys.seen, List.map_append, List.map_singleton, List.append_assoc,
          List.singleton_append]
        refine .append_left _ ?_
        exact List.perm_middle.symm
      order := by
        change ((s.viewed ++ [((s.frames i).seq, (s.frames i).packet)]).map Prod.fst).Pairwise _
        rw [List.map_append, List.pairwise_append]
        refine ⟨h.order, List.pairwise_singleton .., fun a ha b hb => ?_⟩
        cases List.mem_singleton.mp hb
        exact h.seen_le hi ha
      packets := by
        intro v hv
        rcases List.mem_append.mp hv with hv | hv
        · exact h.packets v hv
        · cases List.mem_singleton.mp hv
          exact (h.filled i hi).packet
      pc := by
        rintro j (hj | hj)
        · cases hj
        · cases hj
          exact hi }

/-- The frame is given back, and the scan starts again from the first one. -/
theorem Inv.release (h : Inv s) (hpc : s.pc = .release i) :
    Inv { s.setStatus i tpStatusKernel with
      needsFlush := true, count := s.count + 1, pc := .scan 0 } := by
  have hpending :
      Sys.pending { s.setStatus i tpStatusKernel with
        needsFlush := true, count := s.count + 1, pc := .scan 0 } =
      s.pending := by
    refine pending_congr (fun j => ?_) fun j => seq_setStatus s i j _
    change (s.setStatus i tpStatusKernel).status j ≠ _ ∧ _ ↔ _
    rw [status_setStatus]
    by_cases hj : j = i
    · simp [hj, Sys.Waits, hpc]
    · have hji : i ≠ j := fun heq => hj heq.symm
      simp [hj, Sys.Waits, hpc, hji]
  exact
    { head := h.head
      filled := fun j hj => { h.filled_setStatus hj with }
      places := hpending ▸ h.places
      order := h.order
      packets := h.packets
      pc := by rintro j (hj | hj) <;> cases hj }

/-- `rx_flush` gives a frame back without its packet being seen. -/
theorem Inv.flush (h : Inv s) {pc : Pc} (needsFlush : Bool) (hfrom : s.pc = .flush i)
    (hpc : (¬i.val + 1 < ringFrames ∧ pc = .scan 0) ∨ ∃ j, j.val = i.val + 1 ∧ pc = .flush j) :
    Inv { s.setStatus i tpStatusKernel with
      pc := pc
      needsFlush := needsFlush
      flushed :=
        if s.status i = tpStatusKernel then s.flushed else s.flushed ++ [(s.frames i).seq] } := by
  have hto : ∀ j, pc ≠ .view j ∧ pc ≠ .release j := by
    rcases hpc with ⟨-, rfl⟩ | ⟨_, -, rfl⟩ <;> simp
  have hother : ∀ j, j ≠ i → ((s.setStatus i tpStatusKernel).status j ≠ tpStatusKernel ∧
      pc ≠ .release j ↔ s.Waits j) :=
    fun j hj => by
      rw [status_setStatus, if_neg hj]
      exact and_congr_right fun _ => iff_of_true (hto j).2 (by simp [hfrom])
  have hgone : ¬(s.setStatus i tpStatusKernel).status i ≠ tpStatusKernel := by
    rw [status_setStatus, if_pos rfl]
    exact not_not.mpr rfl
  exact
    { head := h.head
      filled := fun j hj => { h.filled_setStatus hj with }
      places := by
        refine List.Perm.trans ?_ h.places
        simp only [Sys.seen, List.append_assoc]
        refine .append_left _ ?_
        by_cases hfree : s.status i = tpStatusKernel
        · rw [if_pos hfree]
          refine .append_left _ (.of_eq (pending_congr (fun j => ?_)
            fun j => seq_setStatus s i j _))
          by_cases hj : j = i
          · exact iff_of_false (fun hw => hgone (hj ▸ hw.1)) fun hw => hw.1 (hj ▸ hfree)
          · exact hother j hj
        · have hpending :
              s.pending.Perm ((s.frames i).seq :: Sys.pending { s.setStatus i tpStatusKernel with
              pc := pc, needsFlush := needsFlush, flushed := s.flushed ++ [(s.frames i).seq] }) :=
            pending_perm_cons ⟨hfree, by simp [hfrom]⟩ (fun hw => hgone hw.1) hother
              fun j _ _ => seq_setStatus s i j _
          rw [if_neg hfree, List.append_assoc, List.singleton_append]
          exact .append_left _ hpending.symm
      order := h.order
      packets := h.packets
      pc := by
        rintro j (hj | hj)
        · exact absurd hj (hto j).1
        · exact absurd hj (hto j).2 }

theorem next_val (n : Nat) (h : i.val = n % ringFrames) : i.next.val = (n + 1) % ringFrames := by
  change (i.val + 1) &&& 1 = (n + 1) % 2
  change i.val = n % 2 at h
  rw [h, Nat.and_one_is_mod]
  omega

/-- The kernel puts a packet into the frame at its head, if that is free. -/
theorem Inv.deliver (h : Inv s) (packet : List UInt8) (flags : Nat)
    (hfree : s.status s.head = tpStatusKernel) :
    Inv { s with
      frames := Function.update s.frames s.head ⟨flags ||| tpStatusUser, packet, s.delivered.length⟩
      head := s.head.next
      delivered := s.delivered ++ [packet] } := by
  set s' : Sys := { s with
      frames := Function.update s.frames s.head ⟨flags ||| tpStatusUser, packet, s.delivered.length⟩
      head := s.head.next
      delivered := s.delivered ++ [packet] } with hs'
  have hhead : s'.frames s.head = ⟨flags ||| tpStatusUser, packet, s.delivered.length⟩ :=
    Function.update_self ..
  have hother : ∀ j, j ≠ s.head → s'.frames j = s.frames j :=
    fun j hj => Function.update_of_ne hj ..
  have huser : s'.status s.head ≠ tpStatusKernel := by
    rw [Sys.status, hhead]
    exact fun hzero => absurd (Nat.or_eq_zero_iff.mp hzero).2 (by decide)
  have hpc : ∀ i, s.pc = .view i ∨ s.pc = .release i → i ≠ s.head :=
    fun i hi heq => h.pc i hi (heq ▸ hfree)
  have hlength : s'.delivered.length = s.delivered.length + 1 := List.length_append
  exact
    { head := (next_val _ h.head).trans (by rw [hlength])
      filled := fun j hj => by
        by_cases hjh : j = s.head
        · subst hjh
          refine ⟨?_, ?_, ?_, ?_⟩
          all_goals rw [hhead]
          · simp [hlength]
          · rw [hlength]
            exact Nat.add_le_add_left (by decide) _
          · exact h.head.symm
          · simp [hs']
        · have hfilled := h.filled j (by rwa [Sys.status, hother j hjh] at hj)
          have hslot := hfilled.slot
          have hne : j.val ≠ s.head.val := fun heq => hjh (Fin.ext heq)
          rw [h.head] at hne
          have hlast := hfilled.last
          have hlt := hfilled.lt
          refine ⟨?_, ?_, ?_, ?_⟩
          all_goals rw [hother j hjh]
          · omega
          · change _ ≤ _ + 2 at hlast ⊢
            change _ % 2 = _ at hslot
            change _ ≠ _ % 2 at hne
            omega
          · exact hslot
          · rw [← hfilled.packet]
            exact List.getElem?_append_left hlt
      places := by
        have hpending : s'.pending.Perm ((s'.frames s.head).seq :: s.pending) := by
          refine pending_perm_cons ⟨huser, fun hr => hpc s.head (.inr hr) rfl⟩
            (fun hw => hw.1 hfree) (fun j hj => ?_) ?_
          · rw [Sys.Waits, Sys.Waits, Sys.status, Sys.status, hother j hj]
          · exact fun j _ hj => by rw [hother j hj]
        rw [hhead] at hpending
        refine (hpending.append_left _).trans ?_
        rw [hlength, List.range_succ]
        exact List.perm_middle.trans ((h.places.cons _).trans (List.perm_append_singleton ..).symm)
      order := h.order
      packets := fun v hv => by
        have hv := h.packets v hv
        rw [← hv]
        exact List.getElem?_append_left (List.getElem?_eq_some_iff.mp hv).1
      pc := fun i hi => by
        rw [Sys.status, hother i (hpc i hi)]
        exact h.pc i hi }

theorem inv_effect (h : Inv s) (he : Effect s s') : Inv s' := by
  cases he with
  | move hfrom hpc => exact h.move hfrom hpc
  | view hpc => exact h.view hpc
  | release hpc => exact h.release hpc
  | flush needsFlush hfrom hpc => exact h.flush needsFlush hfrom hpc
  | deliver hfree => exact h.deliver _ _ hfree
  | drop => exact { h with filled := fun i hi => { h.filled i hi with } }

/-! ## Whole runs -/

theorem effect_of_step {a : Act} (hs : ring.step s a = some s') : Effect s s' := by
  cases hs
  exact effect_step s a

theorem inv_of_reachable (h : ring.Reachable s) : Inv s := by
  refine h.invariant (P := Inv) ?_ fun s a s' hinv hs => inv_effect hinv (effect_of_step hs)
  rintro s rfl
  exact inv_start

/-- **At most once, and nearly in order.**  In every interleaving of the server and the kernel,
each packet that the kernel has put in the ring has been seen once, or is in the ring, or has
been flushed; it is seen as it came, and before it at most the one packet directly behind it. -/
theorem rx_once (h : ring.Reachable s) :
    (s.seen ++ s.flushed ++ s.pending).Perm (List.range s.delivered.length) ∧
      (∀ v ∈ s.viewed, s.delivered[v.1]? = some v.2) ∧ s.seen.Pairwise fun a b => a ≤ b + 1 := by
  have hinv := inv_of_reachable h
  exact ⟨hinv.places, hinv.packets, hinv.order⟩

/-- Two packets, a third one in the first frame before the second is seen, and a fourth one
while the ring is flushed. -/
def overtaken : List Act :=
  [.deliver [10] 0, .deliver [11] 0, .server, .server, .server, .deliver [12] 0, .server, .server,
    .server, .server, .server, .server, .server, .server, .server, .deliver [13] 0,
    .server, .server]

theorem rx_once_overtaken :
    ∃ s, ring.Reachable s ∧ s.seen = [0, 2, 1] ∧ s.flushed = [3] ∧
      (s.seen ++ s.flushed ++ s.pending).Perm (List.range s.delivered.length) := by
  have hrun :
      (ring.run start overtaken).map (fun s => (s.seen, s.flushed)) = some ([0, 2, 1], [3]) := by
    decide +kernel
  obtain ⟨s, hs, hview⟩ := Option.map_eq_some_iff.mp hrun
  have hreach : ring.Reachable s := System.reachable_of_run (.init rfl) hs
  obtain ⟨hseen, hflushed⟩ := Prod.mk.inj hview
  exact ⟨s, hreach, hseen, hflushed, (rx_once hreach).1⟩

/-! ## What `rx_flush` loses -/

/-- Packet `k` is in a frame that `rx_flush` has still to come to, or has been flushed. -/
def Lost (k : Nat) (s : Sys) : Prop :=
  (∃ i j, s.pc = .flush i ∧ i ≤ j ∧ s.status j ≠ tpStatusKernel ∧ (s.frames j).seq = k) ∨
    k ∈ s.flushed

/-- A packet that is lost stays so. -/
theorem lost_effect (hlost : Lost k s) (he : Effect s s') : Lost k s' := by
  rcases hlost with ⟨i, j, hpc, hij, hj, rfl⟩ | hk
  · cases he with
    | move hfrom | view hfrom | release hfrom => rw [hpc] at hfrom; cases hfrom
    | flush needsFlush hfrom hto =>
        rw [hpc] at hfrom
        cases hfrom
        by_cases hji : j = i
        · refine .inr ?_
          rw [hji] at hj
          simp only [if_neg hj, hji]
          exact List.mem_append_right _ (List.mem_singleton.mpr rfl)
        · have hlt : i.val < j.val := Nat.lt_of_le_of_ne hij fun heq => hji (Fin.ext heq).symm
          rcases hto with ⟨hlast, -⟩ | ⟨i', hi', rfl⟩
          · have := j.isLt
            omega
          · refine .inl ⟨i', j, rfl, ?_, ?_, seq_setStatus ..⟩
            · rw [Fin.le_def]
              omega
            · change (s.setStatus i tpStatusKernel).status j ≠ _
              rwa [status_setStatus, if_neg hji]
    | deliver hfree =>
        have hne : j ≠ s.head := fun heq => hj (heq ▸ hfree)
        refine .inl ⟨i, j, hpc, hij, ?_, ?_⟩
        all_goals simp only [Sys.status, Function.update_of_ne hne]
        exact hj
    | drop => exact .inl ⟨i, j, hpc, hij, hj, rfl⟩
  · refine .inr ?_
    cases he with
    | flush =>
        dsimp only
        split
        · exact hk
        · exact List.mem_append_left _ hk
    | _ => exact hk

/-- A packet that is lost has not been seen: it is in a frame, or flushed, and nowhere
else. -/
theorem Inv.not_seen_of_lost (h : Inv s) (hlost : Lost k s) : k ∉ s.seen := by
  have hnodup := h.places.nodup_iff.mpr List.nodup_range
  rw [List.append_assoc] at hnodup
  intro hseen
  refine (List.nodup_append.mp hnodup).2.2 k hseen k ?_ rfl
  rcases hlost with ⟨i, j, hpc, -, hj, rfl⟩ | hk
  · refine List.mem_append_right _
      (List.mem_map.mpr ⟨j, List.mem_filter.mpr ⟨List.mem_finRange j, ?_⟩, rfl⟩)
    exact decide_eq_true ⟨hj, by simp [hpc]⟩
  · exact List.mem_append_left _ hk

/-- **What is in the ring when it is flushed is never seen.**  A packet in a frame that
`rx_flush` has still to come to is not seen in any continuation. -/
theorem rx_flush_loses (h : ring.Reachable s) (hpc : s.pc = .flush i) (hij : i ≤ j)
    (hj : s.status j ≠ tpStatusKernel) {as : List Act} (hrun : ring.run s as = some s') :
    (s.frames j).seq ∉ s'.seen := by
  have hlost : Lost (s.frames j).seq s' :=
    System.invariant_of_run (I := Lost (s.frames j).seq)
      (fun t a t' hlost hs => lost_effect hlost (effect_of_step hs))
      (.inl ⟨i, j, hpc, hij, hj, rfl⟩) hrun
  exact (inv_of_reachable (System.reachable_of_run h hrun)).not_seen_of_lost hlost

/-- The server has seen a packet and flushes when the next one comes. -/
def lateSecond : List Act :=
  [.deliver [10] 0, .server, .server, .server, .server, .server, .deliver [11] 0]

theorem rx_flush_loses_second :
    ∃ s, ring.Reachable s ∧ s.delivered = [[10], [11]] ∧ ∀ as s', ring.run s as = some s' →
      1 ∉ s'.seen := by
  have hrun :
      (ring.run start lateSecond).map (fun s => (s.pc, s.delivered, s.status 1, (s.frames 1).seq)) =
      some (.flush 0, [[10], [11]], 1, 1) := by decide +kernel
  obtain ⟨s, hs, hview⟩ := Option.map_eq_some_iff.mp hrun
  have hreach : ring.Reachable s := System.reachable_of_run (.init rfl) hs
  simp only [Prod.mk.injEq] at hview
  obtain ⟨hpc, hdelivered, hstatus, hseq⟩ := hview
  refine ⟨s, hreach, hdelivered, fun as s' hrun => ?_⟩
  have hnot := rx_flush_loses hreach hpc (j := 1) (by decide) (by rw [hstatus]; decide) hrun
  rwa [hseq] at hnot

/-! ## When nothing is lost -/

/-- No packet is copied, and none comes between the moment when `process_rx` has found the
first frame empty and the end of the flush. -/
def Quiet (s : Sys) : Act → Prop
  | .server => True
  | .deliver _ flags =>
      flags &&& tpStatusCopy = 0 ∧ (s.pc = .scan 0 ∨ ∃ i, s.pc = .view i ∨ s.pc = .release i)

instance (s : Sys) : (a : Act) → Decidable (Quiet s a)
  | .server => .isTrue trivial
  | .deliver _ _ => inferInstanceAs (Decidable (_ ∧ _))

/-- The frames that `process_rx` has passed are empty. -/
structure Seen (s : Sys) : Prop where
  user : ∀ j, s.status j ≠ tpStatusKernel → s.status j &&& tpStatusUser ≠ 0 ∧
    s.status j &&& tpStatusCopy = 0
  scan : ∀ i, s.pc = .scan i → ∀ j, j < i → s.status j = tpStatusKernel
  flush : ∀ i, s.pc = .flush i → ∀ j, s.status j = tpStatusKernel
  flushed : s.flushed = []

theorem seen_start : Seen start where
  user _ h := absurd rfl h
  scan _ _ _ _ := rfl
  flush _ _ _ := rfl
  flushed := rfl

/-- `process_rx` passes only an empty frame. -/
theorem Seen.scanNext (h : Seen s) (hpc : s.pc = .scan i) (hfree : s.status i = tpStatusKernel) :
    Seen (scanNext s i) := by
  have hpassed : ∀ j : Slot, j.val < i.val + 1 → s.status j = tpStatusKernel := fun j hj => by
    by_cases hji : j = i
    · rw [hji, hfree]
    · exact h.scan i hpc j (Fin.lt_def.mpr
        (Nat.lt_of_le_of_ne (Nat.le_of_lt_succ hj) fun heq => hji (Fin.ext heq)))
  unfold RxRing.scanNext
  split
  · refine ⟨h.user, ?_, ?_, h.flushed⟩
    · rintro i' hi' j hj
      cases hi'
      exact hpassed j (Fin.lt_def.mp hj)
    · rintro i' hi'
      cases hi'
  · next hlast =>
      refine ⟨h.user, ?_, ?_, h.flushed⟩
      · intro i' hi' j hj
        change (if s.needsFlush then Pc.flush 0 else Pc.scan 0) = _ at hi'
        split at hi'
        · cases hi'
        · cases hi'
          exact absurd hj (Fin.not_lt_zero j)
      · intro i' _ j
        exact hpassed j (by omega)

theorem Seen.setStatus (h : Seen s) (i : Slot)
    (hj : (s.setStatus i tpStatusKernel).status j ≠ tpStatusKernel) :
    (s.setStatus i tpStatusKernel).status j &&& tpStatusUser ≠ 0 ∧
      (s.setStatus i tpStatusKernel).status j &&& tpStatusCopy = 0 := by
  rw [status_setStatus] at hj ⊢
  split at hj
  · exact absurd rfl hj
  · next hne => exact if_neg hne ▸ h.user j hj

/-- Every statement of the server keeps the frames that the scan has passed empty. -/
theorem seen_serverStep (h : Seen s) : Seen (serverStep s) := by
  unfold serverStep
  split
  · next i hpc =>
      by_cases hfree : s.status i = tpStatusKernel
      · have hzero : s.status i &&& tpStatusUser = 0 := by rw [hfree]; rfl
        rw [if_neg (not_not.mpr hzero)]
        exact h.scanNext hpc hfree
      · obtain ⟨huser, hcopy⟩ := h.user i hfree
        rw [if_pos huser, if_neg (not_not.mpr hcopy)]
        exact ⟨h.user, fun _ hi => (by cases hi), fun _ hi => (by cases hi), h.flushed⟩
  · exact ⟨h.user, fun _ hi => (by cases hi), fun _ hi => (by cases hi), h.flushed⟩
  · next i hpc =>
      refine ⟨fun j hj => h.setStatus i hj, fun i' hi' j hj => ?_, fun _ hi => (by cases hi),
        h.flushed⟩
      cases hi'
      exact absurd hj (Fin.not_lt_zero j)
  · next i hpc =>
      have hempty := h.flush i hpc
      have hall : ∀ j, (s.setStatus i tpStatusKernel).status j = tpStatusKernel := fun j => by
        rw [status_setStatus]
        split
        · rfl
        · exact hempty j
      simp only [flushNext, if_pos (hempty i)]
      split
      · exact ⟨fun j hj => absurd (hall j) hj, fun _ hi => (by cases hi), fun _ _ j => hall j,
          h.flushed⟩
      · exact ⟨fun j hj => absurd (hall j) hj, fun _ _ j _ => hall j, fun _ hi => (by cases hi),
          h.flushed⟩

/-- So does a packet that comes while the scan stands at the first frame, or does not
scan. -/
theorem seen_deliver (h : Seen s) {packet : List UInt8} {flags : Nat}
    (hcopy : flags &&& tpStatusCopy = 0)
    (hpc : s.pc = .scan 0 ∨ ∃ i, s.pc = .view i ∨ s.pc = .release i) :
    Seen (deliver s packet flags) := by
  have hscan : ∀ i, s.pc = .scan i → i = 0 := fun i hi => by
    rcases hpc with hpc | ⟨j, hpc | hpc⟩ <;> rw [hi] at hpc <;> cases hpc
    rfl
  have hflush : ∀ i, s.pc ≠ .flush i := fun i hi => by
    rcases hpc with hpc | ⟨j, hpc | hpc⟩ <;> rw [hi] at hpc <;> cases hpc
  unfold deliver
  split
  · refine ⟨fun j hj => ?_, fun i hi j hj => ?_, fun i hi => absurd hi (hflush i), h.flushed⟩
    · by_cases hjh : j = s.head
      · simp only [Sys.status, hjh, Function.update_self, Nat.and_or_distrib_right, hcopy]
        refine ⟨fun hzero => ?_, by decide⟩
        exact absurd (Nat.or_eq_zero_iff.mp hzero).2 (by decide)
      · simp only [Sys.status, Function.update_of_ne hjh] at hj ⊢
        exact h.user j hj
    · rw [hscan i hi] at hj
      exact absurd hj (Fin.not_lt_zero j)
  · exact { h with }

/-- **When nothing is lost.**  Unless a packet comes between the moment when `process_rx` has
found the first frame empty and the end of the flush, every packet in the ring is seen or
will be: none has been flushed. -/
theorem rx_lossless_of_quiet {as : List Act} (hquiet : ring.Meets Quiet start as)
    (hrun : ring.run start as = some s) :
    (s.seen ++ s.pending).Perm (List.range s.delivered.length) := by
  have hseen : Seen s := hquiet.invariant (I := Seen) (fun t a t' h ha hs => by
    cases hs
    cases a with
    | server => exact seen_serverStep h
    | deliver packet flags => exact seen_deliver h ha.1 ha.2) seen_start hrun
  have hplaces := (inv_of_reachable (System.reachable_of_run (.init rfl) hrun)).places
  rwa [hseen.flushed, List.append_nil] at hplaces

/-- Three packets, of which the third comes before the second is seen. -/
def quietThree : List Act :=
  [.deliver [10] 0, .deliver [11] 0, .server, .server, .server, .deliver [12] 0, .server, .server,
    .server, .server, .server, .server]

theorem rx_lossless_of_quiet_three :
    ∃ s, ring.run start quietThree = some s ∧ s.delivered.length = 3 ∧
      (s.seen ++ s.pending).Perm (List.range s.delivered.length) := by
  have hrun : (ring.run start quietThree).map (fun s => s.delivered.length) = some 3 := by
    decide +kernel
  obtain ⟨s, hs, hlength⟩ := Option.map_eq_some_iff.mp hrun
  exact ⟨s, hs, hlength, rx_lossless_of_quiet (by decide +kernel) hs⟩

end Linuxyz.RawIp.RxRing
