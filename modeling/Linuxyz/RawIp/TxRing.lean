import Mathlib.Data.Fintype.Card
import Mathlib.Data.List.Iterate
import Linuxyz.Lib.Buffer
import Linuxyz.Lib.System

/-!
# Linuxyz.RawIp.TxRing

The transmit ring of `dev-sock-raw-mmap-packet-ip`: `process_tx` of `client.c`, which
`do_req` calls again and again, beside the kernel that shares the two frames with it.

The kernel looks at the ring only inside of `send`: it takes the frames that are requested
one after the other from its own position on, without copying their bytes, and refuses a
frame that is too long, where it then stops.  When a frame it has taken is on the wire, it
gives it back; frames can come back in any order.

What is accepted goes out once and in order (`tx_in_order`).  But the loop in which
`process_tx` waits for its frame does not call `send`: a frame that a failed `send` has left
requested is never taken while it waits (`process_tx_proceeds_iff`).
-/

namespace Linuxyz.RawIp.TxRing

open Buffer (memcpy overwrite)

/-! ## The ring -/

/-- `CONF_RING_FRAMES` -/
abbrev ringFrames : Nat := 2

/-- `FRAME_SIZE` -/
def frameSize : Nat := 2048

/-- `TX_DATA_OFFSET`, the size of a `struct tpacket2_hdr` -/
def txDataOffset : Nat := 32

/-- The `offset` that `do_req` passes. -/
def offset : Nat := 0

instance : NeZero ringFrames := ⟨by decide⟩

/-- A frame of the ring. -/
abbrev Slot := Fin ringFrames

/-- `(ring_offset + 1) & (CONF_RING_FRAMES - 1)` -/
def Slot.next (i : Slot) : Slot :=
  ⟨(i.val + 1) &&& (ringFrames - 1), Nat.lt_of_le_of_lt Nat.and_le_right (by decide)⟩

/-- `tp_status` of a frame to send -/
inductive Status where
  | available
  | sendRequest
  | sending
  | wrongFormat
deriving DecidableEq, Repr

structure Frame where
  status : Status
  len : Nat
  /-- the bytes from `TX_DATA_OFFSET` on -/
  data : List UInt8
deriving DecidableEq, Repr

/-- The bytes that the header announces. -/
def Frame.packet (f : Frame) : List UInt8 := f.data.take f.len

/-- Where the client is in `process_tx`. -/
inductive Pc where
  /-- in `do_req` -/
  | idle
  /-- at the condition of the loop -/
  | waiting (pkt : List UInt8)
  | polling (pkt : List UInt8)
  /-- at the `memcpy` -/
  | filling (pkt : List UInt8)
  | setLen (pkt : List UInt8)
  | setStatus (pkt : List UInt8)
  /-- in `send` -/
  | sending
  /-- after a `memcpy` that has left the frame -/
  | overrun
deriving DecidableEq, Repr

structure Sys where
  frames : Slot → Frame
  ringOffset : Slot
  pc : Pc
  /-- what the calls of `process_tx` have returned -/
  returned : List Int
  /-- the kernel's position -/
  head : Slot
  /-- taken by the kernel and still to go out -/
  queue : List Slot
  /-- on the wire and not given back yet -/
  done : List Slot
  /-- the packets that have been requested -/
  accepted : List (List UInt8)
  /-- the packets that have gone out -/
  wire : List (List UInt8)

/-- What `poll` returns: a count, or -1 with `EINTR` or another error. -/
inductive Poll where
  | count
  | interrupted
  | error
deriving DecidableEq, Repr

inductive Act where
  | call (pkt : List UInt8)
  | look
  | poll (r : Poll)
  | fill
  | len
  | request
  | sendReturns (ok : Bool)
  | take
  | refuse
  | transmit
  | giveBack (i : Slot)
deriving DecidableEq, Repr

def Sys.status (s : Sys) (i : Slot) : Status := (s.frames i).status

def Sys.packet (s : Sys) (i : Slot) : List UInt8 := (s.frames i).packet

/-- A store to a frame. -/
def Sys.store (s : Sys) (i : Slot) (f : Frame) : Sys :=
  { s with frames := Function.update s.frames i f }

def Sys.setStatus (s : Sys) (i : Slot) (st : Status) : Sys :=
  s.store i { s.frames i with status := st }

/-- `process_tx` returns. -/
def Sys.ret (s : Sys) (r : Int) : Sys := { s with pc := .idle, returned := s.returned ++ [r] }

/-! ## Steps -/

/-- The statements of `process_tx`. -/
def clientStep (s : Sys) : Act → Option Sys
  | .call pkt => if s.pc = .idle then some { s with pc := .waiting pkt } else none
  | .look =>
      match s.pc with
      | .waiting pkt =>
          some { s with pc := if s.status s.ringOffset = .available then .filling pkt
            else .polling pkt }
      | _ => none
  | .poll r =>
      match s.pc, r with
      | .polling pkt, .count => some { s with pc := .waiting pkt }
      | .polling _, .interrupted => some (s.ret 0)
      | .polling _, .error => some (s.ret (-1))
      | _, _ => none
  | .fill =>
      match s.pc with
      | .filling pkt =>
          match memcpy (s.frames s.ringOffset).data offset pkt with
          | some data =>
              some { s.store s.ringOffset { s.frames s.ringOffset with data := data } with
                pc := .setLen pkt }
          | none => some { s with pc := .overrun }
      | _ => none
  | .len =>
      match s.pc with
      | .setLen pkt =>
          some { s.store s.ringOffset { s.frames s.ringOffset with len := pkt.length } with
            pc := .setStatus pkt }
      | _ => none
  | .request =>
      match s.pc with
      | .setStatus pkt =>
          some { s.setStatus s.ringOffset .sendRequest with
            ringOffset := s.ringOffset.next
            accepted := s.accepted ++ [pkt]
            pc := .sending }
      | _ => none
  | .sendReturns ok =>
      -- a `send` that succeeds has come to the end of the frames that are requested
      if s.pc = .sending ∧ (ok → s.status s.head ≠ .sendRequest) then
        some (s.ret (if ok then 0 else -1))
      else none
  | _ => none

/-- What the kernel does; `sizeMax` is the longest packet it sends. -/
def kernelStep (sizeMax : Nat) (s : Sys) : Act → Option Sys
  | .take =>
      if s.pc = .sending ∧ s.status s.head = .sendRequest ∧ (s.frames s.head).len ≤ sizeMax then
        some { s.setStatus s.head .sending with queue := s.queue ++ [s.head], head := s.head.next }
      else none
  | .refuse =>
      if s.pc = .sending ∧ s.status s.head = .sendRequest ∧ sizeMax < (s.frames s.head).len then
        some (s.setStatus s.head .wrongFormat)
      else none
  | .transmit =>
      match s.queue with
      | [] => none
      | i :: queue =>
          some { s with queue := queue, done := s.done ++ [i], wire := s.wire ++ [s.packet i] }
  | .giveBack i =>
      if i ∈ s.done then some { s.setStatus i .available with done := s.done.erase i } else none
  | _ => none

def step (sizeMax : Nat) (s : Sys) (a : Act) : Option Sys :=
  (clientStep s a).or (kernelStep sizeMax s a)

/-- The ring when it is mapped: all zero. -/
def start : Sys where
  frames _ := ⟨.available, 0, List.replicate (frameSize - txDataOffset) 0⟩
  ringOffset := 0
  pc := .idle
  returned := []
  head := 0
  queue := []
  done := []
  accepted := []
  wire := []

/-- The client and the kernel. -/
def ring (sizeMax : Nat) : System Sys Act where
  init s := s = start
  step := step sizeMax

variable {sizeMax : Nat} {s s' : Sys} {i j : Slot} {posted : List Slot}

/-! ## Frames -/

theorem frames_store (s : Sys) (i j : Slot) (f : Frame) :
    (s.store i f).frames j = if j = i then f else s.frames j :=
  Function.update_apply ..

theorem status_setStatus (s : Sys) (i j : Slot) (st : Status) :
    (s.setStatus i st).status j = if j = i then st else s.status j := by
  rw [Sys.status, Sys.setStatus, frames_store]
  split <;> rfl

@[simp] theorem packet_setStatus (s : Sys) (i : Slot) (st : Status) :
    (s.setStatus i st).packet = s.packet := by
  funext j
  rw [Sys.packet, Sys.setStatus, frames_store]
  split
  · next h => rw [h]; rfl
  · rfl

/-- A store that keeps the status of the frame keeps that of all. -/
theorem status_store (s : Sys) {f : Frame} (h : f.status = s.status i) :
    (s.store i f).status = s.status := by
  funext j
  rw [Sys.status, frames_store]
  split
  · next hj => rw [hj, h]
  · rfl

theorem map_packet_store (s : Sys) {l : List Slot} (f : Frame) (h : i ∉ l) :
    l.map (s.store i f).packet = l.map s.packet := by
  refine List.map_congr_left fun j hj => ?_
  have hne : j ≠ i := fun hij => h (hij ▸ hj)
  rw [Sys.packet, frames_store, if_neg hne]
  rfl

/-! ## The invariant -/

/-- What the client knows of its frame. -/
def Pc.Ok : Pc → Frame → Prop
  | .filling _, f => f.status = .available
  | .setLen pkt, f => f.status = .available ∧ f.data.take pkt.length = pkt
  | .setStatus pkt, f => f.status = .available ∧ f.packet = pkt
  | _, _ => True

/-- `posted` are the frames that the client has requested and the kernel has not taken, from
the kernel's position up to that of the client. -/
structure Inv (s : Sys) (posted : List Slot) : Prop where
  window : posted = List.iterate Slot.next s.head posted.length
  offset : s.ringOffset = Slot.next^[posted.length] s.head
  nodup : (s.queue ++ s.done ++ posted).Nodup
  taken : ∀ i, i ∈ s.queue ++ s.done ↔ s.status i = .sending
  requested : ∀ i, i ∈ posted ↔ s.status i = .sendRequest ∨ s.status i = .wrongFormat
  refused : ∀ i, s.status i = .wrongFormat → i = s.head
  order : s.accepted = s.wire ++ (s.queue ++ posted).map s.packet
  client : s.pc.Ok (s.frames s.ringOffset)

/-- All frames are available, and nothing has been accepted. -/
theorem inv_start : Inv start [] where
  window := rfl
  offset := rfl
  nodup := List.nodup_nil
  taken i := ⟨fun h => absurd h List.not_mem_nil, fun h => by cases h⟩
  requested i := ⟨fun h => absurd h List.not_mem_nil, fun h => by rcases h with h | h <;> cases h⟩
  refused i h := by cases h
  order := rfl
  client := trivial

/-- A frame that is available is with nobody. -/
theorem Inv.not_mem (h : Inv s posted) (hfree : s.status i = .available) :
    i ∉ s.queue ++ s.done ++ posted := by
  intro hi
  rcases List.mem_append.mp hi with hi | hi
  · rw [h.taken, hfree] at hi
    cases hi
  · rw [h.requested, hfree] at hi
    rcases hi with hi | hi <;> cases hi

theorem Inv.not_mem_order (h : Inv s posted) (hfree : s.status i = .available) :
    i ∉ s.queue ++ posted := by
  have hout := h.not_mem hfree
  simp only [List.mem_append, not_or] at hout ⊢
  exact ⟨hout.1.1, hout.2⟩

/-- A step of the client that changes no frame. -/
theorem Inv.move (h : Inv s posted) {pc : Pc} (hpc : pc.Ok (s.frames s.ringOffset))
    (returned : List Int) : Inv { s with pc := pc, returned := returned } posted :=
  { h with client := hpc }

/-- A store of the client to its frame, before it is requested. -/
theorem Inv.write (h : Inv s posted) (hfree : s.status s.ringOffset = .available) {f : Frame}
    (hf : f.status = .available) {pc : Pc} (hpc : pc.Ok f) :
    Inv { s.store s.ringOffset f with pc := pc } posted := by
  have hstatus := status_store s (hf.trans hfree.symm)
  exact
    { window := h.window
      offset := h.offset
      nodup := h.nodup
      taken := fun i => (h.taken i).trans (by rw [← hstatus]; rfl)
      requested := fun i => (h.requested i).trans (by rw [← hstatus]; rfl)
      refused := fun i hi => h.refused i (hstatus ▸ hi)
      order :=
        h.order.trans (congrArg (s.wire ++ ·) (map_packet_store s f (h.not_mem_order hfree)).symm)
      client := by
        change pc.Ok ((s.store s.ringOffset f).frames s.ringOffset)
        rwa [frames_store, if_pos rfl] }

/-! ## Steps keep it -/

/-- The frame behind those that are posted is that of the client. -/
theorem Inv.window_succ (h : Inv s posted) :
    posted ++ [s.ringOffset] = List.iterate Slot.next s.head (posted ++ [s.ringOffset]).length := by
  rw [List.length_append, List.iterate_add, ← h.window, ← h.offset]
  rfl

/-- The client requests its frame. -/
theorem Inv.request (h : Inv s posted) {pkt : List UInt8}
    (hfree : s.status s.ringOffset = .available) (hpkt : s.packet s.ringOffset = pkt) :
    Inv { s.setStatus s.ringOffset .sendRequest with
      ringOffset := s.ringOffset.next
      accepted := s.accepted ++ [pkt]
      pc := .sending } (posted ++ [s.ringOffset]) where
  window := h.window_succ
  offset := by
    rw [List.length_append, Nat.add_comm, Function.iterate_add_apply, List.length_singleton]
    exact congrArg Slot.next h.offset
  nodup := by
    rw [← List.append_assoc]
    exact h.nodup.append (List.nodup_singleton _) (List.disjoint_singleton.mpr (h.not_mem hfree))
  taken i := by
    refine (h.taken i).trans ?_
    change _ ↔ (s.setStatus s.ringOffset .sendRequest).status i = .sending
    rw [status_setStatus]
    split
    · next hi => simp [hi, hfree]
    · rfl
  requested i := by
    change _ ↔ (s.setStatus s.ringOffset .sendRequest).status i = _ ∨
      (s.setStatus s.ringOffset .sendRequest).status i = _
    rw [status_setStatus, List.mem_append, h.requested, List.mem_singleton]
    split
    · next hi => simp [hi]
    · next hi => simp [hi]
  refused i hi := by
    change (s.setStatus s.ringOffset .sendRequest).status i = _ at hi
    rw [status_setStatus] at hi
    split at hi
    · cases hi
    · exact h.refused i hi
  order := by
    change s.accepted ++ [pkt] =
      s.wire ++ (s.queue ++ (posted ++ [s.ringOffset])).map
        (s.setStatus s.ringOffset .sendRequest).packet
    rw [packet_setStatus, h.order, ← hpkt]
    simp
  client := trivial

/-- The kernel's frame is the first of those that are posted. -/
theorem Inv.head_posted (h : Inv s posted)
    (hhead : s.status s.head = .sendRequest ∨ s.status s.head = .wrongFormat) :
    posted = s.head :: posted.tail ∧
      posted.tail = List.iterate Slot.next s.head.next posted.tail.length ∧
      s.ringOffset = Slot.next^[posted.tail.length] s.head.next := by
  have hmem := (h.requested s.head).mpr hhead
  cases posted with
  | nil => cases hmem
  | cons i rest =>
      have hwindow := h.window
      rw [List.length_cons, List.iterate] at hwindow
      obtain ⟨rfl, hrest⟩ := List.cons.inj hwindow
      exact ⟨rfl, hrest, h.offset⟩

/-- The kernel takes the frame at its head, which is the first of those requested. -/
theorem Inv.take (h : Inv s posted) (hpc : s.pc = .sending)
    (hhead : s.status s.head = .sendRequest) :
    Inv { s.setStatus s.head .sending with
      queue := s.queue ++ [s.head], head := s.head.next } posted.tail := by
  obtain ⟨hposted, hwindow, hoffset⟩ := h.head_posted (.inl hhead)
  have hnodup := h.nodup
  rw [hposted] at hnodup
  have hperm :
      (s.queue ++ [s.head] ++ s.done ++ posted.tail).Perm (s.queue ++ s.done ++
        s.head :: posted.tail) := by
    simp only [List.append_assoc, List.singleton_append]
    exact (List.perm_middle.symm).append_left _
  have hnot : s.head ∉ posted.tail := by
    have := (List.nodup_append.mp hnodup).2.1
    exact (List.nodup_cons.mp this).1
  exact
    { window := hwindow
      offset := hoffset
      nodup := hperm.nodup_iff.mpr hnodup
      taken := fun i => by
        change i ∈ s.queue ++ [s.head] ++ s.done ↔ (s.setStatus s.head .sending).status i = .sending
        have htaken := h.taken i
        rw [List.mem_append] at htaken
        rw [status_setStatus, List.mem_append, List.mem_append, List.mem_singleton,
          or_right_comm, htaken]
        split
        · next hi => simp [hi]
        · next hi => simp [hi]
      requested := fun i => by
        change _ ↔ (s.setStatus s.head .sending).status i = _ ∨
          (s.setStatus s.head .sending).status i = _
        rw [status_setStatus]
        have hreq := h.requested i
        rw [hposted, List.mem_cons] at hreq
        split
        · next hi => simp [hi, hnot]
        · next hi => simpa [hi] using hreq
      refused := fun i hi => by
        change (s.setStatus s.head .sending).status i = _ at hi
        rw [status_setStatus] at hi
        split at hi
        · cases hi
        · next hne => exact absurd (h.refused i hi) hne
      order := by
        change s.accepted =
          s.wire ++ (s.queue ++ [s.head] ++ posted.tail).map (s.setStatus s.head .sending).packet
        rw [packet_setStatus, h.order, List.append_assoc, List.singleton_append, ← hposted]
      client := by
        change s.pc.Ok _
        rw [hpc]
        trivial }

/-- The kernel refuses the frame at its head, and does not go past it. -/
theorem Inv.refuse (h : Inv s posted) (hpc : s.pc = .sending)
    (hhead : s.status s.head = .sendRequest) : Inv (s.setStatus s.head .wrongFormat) posted where
  window := h.window
  offset := h.offset
  nodup := h.nodup
  taken i := by
    refine (h.taken i).trans ?_
    rw [status_setStatus]
    split
    · next hi => simp [hi, hhead]
    · rfl
  requested i := by
    rw [h.requested, status_setStatus]
    split
    · next hi => simp [hi, hhead]
    · rfl
  refused i hi := by
    rw [status_setStatus] at hi
    split at hi
    · assumption
    · exact h.refused i hi
  order := by
    rw [packet_setStatus]
    exact h.order
  client := by
    change s.pc.Ok _
    rw [hpc]
    trivial

/-- The first of the frames that were taken goes out. -/
theorem Inv.transmit (h : Inv s posted) {queue : List Slot} (hqueue : s.queue = i :: queue) :
    Inv { s with
      queue := queue, done := s.done ++ [i], wire := s.wire ++ [s.packet i] } posted := by
  have hperm : (queue ++ (s.done ++ [i])).Perm (s.queue ++ s.done) := by
    rw [hqueue, ← List.append_assoc]
    exact List.perm_append_singleton ..
  exact
    { h with
      nodup := (hperm.append_right posted).nodup_iff.mpr h.nodup
      taken := fun j => hperm.mem_iff.trans (h.taken j)
      order := by
        have horder := h.order
        rw [hqueue] at horder
        rw [horder]
        simp
        rfl }

/-- A frame that has gone out becomes available again. -/
theorem Inv.giveBack (h : Inv s posted) (hi : i ∈ s.done) :
    Inv { s.setStatus i .available with done := s.done.erase i } posted := by
  have hsending : s.status i = .sending := (h.taken i).mp (List.mem_append_right _ hi)
  have hsplit := List.nodup_append.mp (List.nodup_append.mp h.nodup).1
  have hqueue : i ∉ s.queue := fun hq => hsplit.2.2 i hq i hi rfl
  exact
    { window := h.window
      offset := h.offset
      nodup := h.nodup.sublist ((List.erase_sublist.append_left _).append_right _)
      taken := fun j => by
        change j ∈ s.queue ++ s.done.erase i ↔ (s.setStatus i .available).status j = .sending
        have htaken := h.taken j
        rw [List.mem_append] at htaken
        rw [status_setStatus, List.mem_append, hsplit.2.1.mem_erase_iff]
        split
        · next hj => simp [hj, hqueue]
        · next hj => simpa [hj] using htaken
      requested := fun j => by
        refine (h.requested j).trans ?_
        change _ ↔ (s.setStatus i .available).status j = _ ∨ (s.setStatus i .available).status j = _
        rw [status_setStatus]
        split
        · next hj => simp [hj, hsending]
        · rfl
      refused := fun j hj => by
        change (s.setStatus i .available).status j = _ at hj
        rw [status_setStatus] at hj
        split at hj
        · cases hj
        · exact h.refused j hj
      order := by
        change s.accepted = s.wire ++ (s.queue ++ posted).map (s.setStatus i .available).packet
        rw [packet_setStatus]
        exact h.order
      client := by
        change s.pc.Ok ((s.setStatus i .available).frames s.ringOffset)
        rw [Sys.setStatus, frames_store]
        split
        · next hoff =>
            -- the client does not know anything of a frame that is being sent
            have hclient := h.client
            rw [hoff] at hclient
            change (s.frames i).status = .sending at hsending
            cases hpc : s.pc <;> simp_all [Pc.Ok]
        · exact h.client }

/-- What a step can do. -/
inductive Effect (s : Sys) : Sys → Prop where
  | move {pc : Pc} (returned : List Int) (hpc : pc.Ok (s.frames s.ringOffset)) :
      Effect s { s with pc := pc, returned := returned }
  | write {f : Frame} {pc : Pc} (hfree : s.status s.ringOffset = .available)
      (hf : f.status = .available)
      (hpc : pc.Ok f) : Effect s { s.store s.ringOffset f with pc := pc }
  | request (hfree : s.status s.ringOffset = .available) :
      Effect s { s.setStatus s.ringOffset .sendRequest with
        ringOffset := s.ringOffset.next
        accepted := s.accepted ++ [s.packet s.ringOffset]
        pc := .sending }
  | take (hpc : s.pc = .sending) (hhead : s.status s.head = .sendRequest) :
      Effect s { s.setStatus s.head .sending with
        queue := s.queue ++ [s.head], head := s.head.next }
  | refuse (hpc : s.pc = .sending) (hhead : s.status s.head = .sendRequest) :
      Effect s (s.setStatus s.head .wrongFormat)
  | transmit {i : Slot} {queue : List Slot} (hqueue : s.queue = i :: queue) :
      Effect s { s with queue := queue, done := s.done ++ [i], wire := s.wire ++ [s.packet i] }
  | giveBack {i : Slot} (hi : i ∈ s.done) :
      Effect s { s.setStatus i .available with done := s.done.erase i }

/-- Every statement of the client has one of the effects. -/
theorem effect_of_clientStep {a : Act} (h : Inv s posted) (hs : clientStep s a = some s') :
    Effect s s' := by
  have hclient := h.client
  cases a with
  | call pkt | sendReturns ok =>
      simp only [clientStep, Option.ite_none_right_eq_some, Option.some.injEq] at hs
      obtain ⟨-, rfl⟩ := hs
      exact .move _ trivial
  | look =>
      simp only [clientStep] at hs
      split at hs
      · next pkt hpc =>
          cases hs
          refine .move _ ?_
          split
          · assumption
          · trivial
      · cases hs
  | poll r =>
      simp only [clientStep] at hs
      split at hs
      all_goals cases hs
      all_goals exact .move _ trivial
  | fill =>
      simp only [clientStep] at hs
      split at hs
      · next pkt hpc =>
          rw [hpc] at hclient
          split at hs
          · next data hdata =>
              cases hs
              refine .write hclient hclient ⟨hclient, ?_⟩
              rw [memcpy, Option.ite_none_right_eq_some] at hdata
              obtain ⟨-, hdata⟩ := hdata
              rw [← Option.some.inj hdata]
              exact Buffer.take_overwrite_zero ..
          · cases hs
            exact .move _ trivial
      · cases hs
  | len =>
      simp only [clientStep] at hs
      split at hs
      · next pkt hpc =>
          rw [hpc] at hclient
          cases hs
          exact .write hclient.1 hclient.1 hclient
      · cases hs
  | request =>
      simp only [clientStep] at hs
      split at hs
      · next pkt hpc =>
          rw [hpc] at hclient
          cases hs
          rw [← hclient.2]
          exact .request hclient.1
      · cases hs
  | take | refuse | transmit | giveBack => cases hs

/-- Every action of the kernel has one of the effects. -/
theorem effect_of_kernelStep {a : Act} (hs : kernelStep sizeMax s a = some s') : Effect s s' := by
  cases a with
  | take =>
      simp only [kernelStep, Option.ite_none_right_eq_some, Option.some.injEq] at hs
      obtain ⟨⟨hpc, hhead, -⟩, rfl⟩ := hs
      exact .take hpc hhead
  | refuse =>
      simp only [kernelStep, Option.ite_none_right_eq_some, Option.some.injEq] at hs
      obtain ⟨⟨hpc, hhead, -⟩, rfl⟩ := hs
      exact .refuse hpc hhead
  | transmit =>
      simp only [kernelStep] at hs
      split at hs
      · cases hs
      · next hqueue =>
          cases hs
          exact .transmit hqueue
  | giveBack i =>
      simp only [kernelStep, Option.ite_none_right_eq_some, Option.some.injEq] at hs
      obtain ⟨hi, rfl⟩ := hs
      exact .giveBack hi
  | _ => cases hs

theorem effect_of_step {a : Act} (h : Inv s posted) (hs : step sizeMax s a = some s') :
    Effect s s' := by
  rw [step, Option.or_eq_some_iff] at hs
  rcases hs with hs | ⟨-, hs⟩
  · exact effect_of_clientStep h hs
  · exact effect_of_kernelStep hs

/-- Every effect keeps the invariant, for the frames that are then requested. -/
theorem inv_effect (h : Inv s posted) (he : Effect s s') : ∃ posted', Inv s' posted' := by
  cases he with
  | move returned hpc => exact ⟨_, h.move hpc returned⟩
  | write hfree hf hpc => exact ⟨_, h.write hfree hf hpc⟩
  | request hfree => exact ⟨_, h.request hfree rfl⟩
  | take hpc hhead => exact ⟨_, h.take hpc hhead⟩
  | refuse hpc hhead => exact ⟨_, h.refuse hpc hhead⟩
  | transmit hqueue => exact ⟨_, h.transmit hqueue⟩
  | giveBack hi => exact ⟨_, h.giveBack hi⟩

/-! ## Whole runs -/

theorem inv_of_reachable (h : (ring sizeMax).Reachable s) : ∃ posted, Inv s posted := by
  refine h.invariant (P := fun s => ∃ posted, Inv s posted) ?_ ?_
  · rintro s rfl
    exact ⟨[], inv_start⟩
  · rintro s a s' ⟨posted, hinv⟩ hs
    exact inv_effect hinv (effect_of_step hinv hs)

/-- **Once and in order.**  In every interleaving of the client and the kernel, what has gone
out, followed by the frames that the kernel has taken and those that are requested, is what
has been accepted: nothing is lost, sent twice, reordered or overwritten before it is out. -/
theorem tx_in_order (h : (ring sizeMax).Reachable s) :
    ∃ posted, s.accepted = s.wire ++ (s.queue ++ posted).map s.packet ∧
      (s.queue ++ s.done ++ posted).Nodup ∧
      (∀ i, i ∈ posted ↔ s.status i = .sendRequest ∨ s.status i = .wrongFormat) ∧
      ∀ i, i ∈ s.queue ++ s.done ↔ s.status i = .sending := by
  obtain ⟨posted, hinv⟩ := inv_of_reachable h
  exact ⟨posted, hinv.order, hinv.nodup, hinv.requested, hinv.taken⟩

/-- A packet of three bytes on its way through the first frame, and a second one requested
behind it. -/
def sendTwo : List Act :=
  [.call [1, 2, 3], .look, .fill, .len, .request, .take, .transmit, .sendReturns true, .call [4],
    .look, .fill, .len, .request]

theorem tx_in_order_two :
    ∃ s posted, (ring 1514).Reachable s ∧ s.wire = [[1, 2, 3]] ∧ s.accepted = [[1, 2, 3], [4]] ∧
      s.accepted = s.wire ++ (s.queue ++ posted).map s.packet := by
  have hrun : ((ring 1514).run start sendTwo).map (fun s => (s.wire, s.accepted)) =
      some ([[1, 2, 3]], [[1, 2, 3], [4]]) := by decide +kernel
  obtain ⟨s, hs, hview⟩ := Option.map_eq_some_iff.mp hrun
  have hreach : (ring 1514).Reachable s := System.reachable_of_run (.init rfl) hs
  obtain ⟨posted, horder, -⟩ := tx_in_order hreach
  obtain ⟨hwire, haccepted⟩ := Prod.mk.inj hview
  exact ⟨s, posted, hreach, hwire, haccepted, horder⟩

/-! ## Waiting for a frame -/

/-- The client is in its loop, and the frame it waits for is requested. -/
def Stuck (pkt : List UInt8) (s : Sys) : Prop :=
  (s.pc = .waiting pkt ∨ s.pc = .polling pkt) ∧
    (s.status s.ringOffset = .sendRequest ∨ s.status s.ringOffset = .wrongFormat)

/-- Without a `poll` that fails, nothing gets the client out of it. -/
theorem stuck_step {a : Act} {pkt : List UInt8} (h : Inv s posted) (hstuck : Stuck pkt s)
    (ha : ∀ r, a = .poll r → r = .count) (hs : step sizeMax s a = some s') : Stuck pkt s' := by
  obtain ⟨hpc, hstatus⟩ := hstuck
  have hbusy : s.status s.ringOffset ≠ .available := by rcases hstatus with hst | hst <;> simp [hst]
  rw [step, Option.or_eq_some_iff] at hs
  rcases hs with hs | ⟨-, hs⟩
  · cases a with
    | look =>
        rcases hpc with hpc | hpc <;>
          simp only [clientStep, hpc, if_neg hbusy, reduceCtorEq, Option.some.injEq] at hs
        subst hs
        exact ⟨.inr rfl, hstatus⟩
    | poll r =>
        cases ha r rfl
        rcases hpc with hpc | hpc <;>
          simp only [clientStep, hpc, reduceCtorEq, Option.some.injEq] at hs
        subst hs
        exact ⟨.inl rfl, hstatus⟩
    | _ => rcases hpc with hpc | hpc <;> simp [clientStep, hpc] at hs
  · cases a with
    | transmit =>
        simp only [kernelStep] at hs
        split at hs
        · cases hs
        · cases hs
          exact ⟨hpc, hstatus⟩
    | giveBack i =>
        simp only [kernelStep, Option.ite_none_right_eq_some, Option.some.injEq] at hs
        obtain ⟨hi, rfl⟩ := hs
        have hsending := (h.taken i).mp (List.mem_append_right _ hi)
        have hne : s.ringOffset ≠ i := by
          rintro rfl
          rcases hstatus with hst | hst <;> rw [hst] at hsending <;> cases hsending
        refine ⟨hpc, ?_⟩
        change (s.setStatus i .available).status s.ringOffset = _ ∨
          (s.setStatus i .available).status s.ringOffset = _
        rwa [status_setStatus, if_neg hne]
    | _ => rcases hpc with hpc | hpc <;> simp [kernelStep, hpc] at hs

theorem stuck_run {as : List Act} {pkt : List UInt8} (h : Inv s posted) (hstuck : Stuck pkt s)
    (has : ∀ a ∈ as, ∀ r, a = .poll r → r = .count)
    (hrun : (ring sizeMax).run s as = some s') : Stuck pkt s' := by
  have hmeets := System.meets_of_forall (M := ring sizeMax) s has
  refine (hmeets.invariant (I := fun s => (∃ posted, Inv s posted) ∧
    Stuck pkt s) ?_ ⟨⟨posted, h⟩, hstuck⟩ hrun).2
  rintro s a s' ⟨⟨posted, hinv⟩, hstuck⟩ ha hs
  exact ⟨inv_effect hinv (effect_of_step hinv hs), stuck_step hinv hstuck ha hs⟩

/-- The kernel gives back, by itself, a frame that it has taken. -/
theorem exists_giveBack (sizeMax : Nat) (h : Inv s posted) (hi : i ∈ s.queue ++ s.done) :
    ∃ as s', (∀ a ∈ as, ∀ r, a ≠ .poll r) ∧ (ring sizeMax).run s as = some s' ∧ s'.pc = s.pc ∧
      s'.ringOffset = s.ringOffset ∧ s'.status i = .available := by
  induction hqueue : s.queue generalizing s with
  | nil =>
      rw [hqueue, List.nil_append] at hi
      have hrun : (ring sizeMax).run s [.giveBack i] =
          some { s.setStatus i .available with done := s.done.erase i } := by
        simp only [System.run_cons, ring, step, clientStep, kernelStep, if_pos hi, Option.none_or]
        rfl
      refine ⟨[.giveBack i], _, by simp, hrun, rfl, rfl, ?_⟩
      exact (status_setStatus s i i _).trans (if_pos rfl)
  | cons j queue ih =>
      have hstep : (ring sizeMax).step s .transmit =
          some { s with
            queue := queue, done := s.done ++ [j], wire := s.wire ++ [s.packet j] } := by
        simp only [ring, step, clientStep, kernelStep, hqueue, Option.none_or]
      have hmem : i ∈ queue ++ (s.done ++ [j]) := by
        rw [hqueue] at hi
        simp only [List.mem_append, List.mem_cons] at hi ⊢
        tauto
      obtain ⟨as, s', has, hrun, hs'⟩ := ih (h.transmit hqueue) hmem rfl
      exact ⟨.transmit :: as, s', by simpa using has,
        by rw [System.run_cons, hstep]; exact hrun, hs'⟩

/-- **Who waits for ever.**  A client in the loop of `process_tx` can come to its frame, in
some continuation without an error of `poll`, exactly if the frame is available or taken by the
kernel: a frame that is still requested, because a `send` has failed, or refused, keeps it
there for ever. -/
theorem process_tx_proceeds_iff (h : (ring sizeMax).Reachable s) {pkt : List UInt8}
    (hpc : s.pc = .waiting pkt) :
    (∃ as s', (∀ a ∈ as, ∀ r, a = .poll r → r = .count) ∧ (ring sizeMax).run s as = some s' ∧
      s'.pc = .filling pkt) ↔ s.status s.ringOffset = .available ∨
        s.status s.ringOffset = .sending := by
  obtain ⟨posted, hinv⟩ := inv_of_reachable h
  have hlook : ∀ s : Sys, s.pc = .waiting pkt → s.status s.ringOffset = .available →
      (ring sizeMax).run s [.look] = some { s with pc := .filling pkt } := fun s hpc hfree => by
    simp only [System.run_cons, ring, step, clientStep, hpc, if_pos hfree]
    rfl
  constructor
  · rintro ⟨as, s', has, hrun, hfilling⟩
    by_contra hbusy
    have hstuck : Stuck pkt s := by
      refine ⟨.inl hpc, ?_⟩
      cases hst : s.status s.ringOffset <;> simp [hst] at hbusy ⊢
    rcases (stuck_run hinv hstuck has hrun).1 with hpc' | hpc' <;>
      rw [hfilling] at hpc' <;> cases hpc'
  · rintro (hfree | hsending)
    · exact ⟨[.look], _, by simp, hlook s hpc hfree, rfl⟩
    · obtain ⟨as, s₁, has, hrun, hpc₁, hoff, hfree⟩ :=
        exists_giveBack sizeMax hinv ((hinv.taken _).mpr hsending)
      refine ⟨as ++ [.look], { s₁ with pc := .filling pkt }, ?_, ?_, rfl⟩
      · intro a ha r hr
        rcases List.mem_append.mp ha with ha | ha
        · exact absurd hr (has a ha r)
        · cases List.mem_singleton.mp ha
          cases hr
      · rw [System.run_append, hrun]
        exact hlook s₁ (hpc₁.trans hpc) (hoff ▸ hfree)

/-- Two packets whose `send` has failed, and a third call. -/
def failTwice : List Act :=
  [.call [1], .look, .fill, .len, .request, .sendReturns false, .call [2], .look, .fill,
    .len, .request, .sendReturns false, .call [3]]

/-- The third call waits for ever. -/
theorem process_tx_waits_third :
    ∃ s, (ring 1514).Reachable s ∧ s.pc = .waiting [3] ∧ s.returned = [-1, -1] ∧
      ¬∃ as s', (∀ a ∈ as, ∀ r, a = .poll r → r = .count) ∧ (ring 1514).run s as = some s' ∧
      s'.pc = .filling [3] := by
  have hrun :
      ((ring 1514).run start failTwice).map (fun s => (s.pc, s.returned, s.status s.ringOffset)) =
      some (.waiting [3], [-1, -1], .sendRequest) := by decide +kernel
  obtain ⟨s, hs, hview⟩ := Option.map_eq_some_iff.mp hrun
  have hreach : (ring 1514).Reachable s := System.reachable_of_run (.init rfl) hs
  simp only [Prod.mk.injEq] at hview
  obtain ⟨hpc, hreturned, hstatus⟩ := hview
  refine ⟨s, hreach, hpc, hreturned, ?_⟩
  rw [process_tx_proceeds_iff hreach hpc, hstatus]
  decide

/-! ## A packet that is refused -/

/-- The kernel does not get past a frame that it has refused. -/
theorem refused_effect (h : Inv s posted) (hhead : s.status s.head = .wrongFormat)
    (he : Effect s s') :
    s'.status s'.head = .wrongFormat ∧
      s'.wire ++ s'.queue.map s'.packet = s.wire ++ s.queue.map s.packet := by
  cases he with
  | move => exact ⟨hhead, rfl⟩
  | write hfree hf =>
      have hqueue : s.ringOffset ∉ s.queue :=
        fun hq => h.not_mem_order hfree (List.mem_append_left _ hq)
      refine ⟨?_, congrArg (s.wire ++ ·) (map_packet_store s _ hqueue)⟩
      exact (congrFun (status_store s (hf.trans hfree.symm)) s.head).trans hhead
  | request hfree =>
      have hne : s.head ≠ s.ringOffset := fun heq => by rw [heq, hfree] at hhead; cases hhead
      refine ⟨(status_setStatus ..).trans ((if_neg hne).trans hhead), ?_⟩
      exact congrArg (s.wire ++ s.queue.map ·) (packet_setStatus ..)
  | take _ hreq | refuse _ hreq => rw [hreq] at hhead; cases hhead
  | transmit hqueue =>
      refine ⟨hhead, ?_⟩
      rw [hqueue, List.append_assoc]
      rfl
  | @giveBack i hi =>
      have hsending := (h.taken i).mp (List.mem_append_right _ hi)
      have hne : s.head ≠ i := fun heq => by rw [← heq, hhead] at hsending; cases hsending
      refine ⟨(status_setStatus ..).trans ((if_neg hne).trans hhead), ?_⟩
      exact congrArg (s.wire ++ s.queue.map ·) (packet_setStatus ..)

/-- **A refused packet is the last one.**  Where a frame has been refused, because its packet
was too long for the device, no packet behind it ever goes out, and at most one more is
accepted. -/
theorem tx_refused_stops (h : (ring sizeMax).Reachable s) (hi : s.status i = .wrongFormat)
    {as : List Act} (hrun : (ring sizeMax).run s as = some s') :
    s'.wire ++ s'.queue.map s'.packet = s.wire ++ s.queue.map s.packet ∧
      s'.accepted.length ≤ s.accepted.length + 1 := by
  obtain ⟨posted, hinv⟩ := inv_of_reachable h
  have hhead : s.status s.head = .wrongFormat := hinv.refused i hi ▸ hi
  obtain ⟨⟨posted', hinv'⟩, hhead', hsent⟩ :=
    System.invariant_of_run
      (I := fun t => (∃ posted, Inv t posted) ∧ t.status t.head = .wrongFormat ∧
        t.wire ++ t.queue.map t.packet = s.wire ++ s.queue.map s.packet)
      (fun t a t' ⟨⟨posted, hinv⟩, hhead, hsent⟩ hs => by
        have he := effect_of_step hinv hs
        obtain ⟨hhead', hsent'⟩ := refused_effect hinv hhead he
        exact ⟨inv_effect hinv he, hhead', hsent'.trans hsent⟩)
      ⟨⟨posted, hinv⟩, hhead, rfl⟩ hrun
  refine ⟨hsent, ?_⟩
  -- the ring has two frames, one of which held the refused packet before
  have htwo : posted'.length ≤ 2 := List.Nodup.length_le_card (List.nodup_append.mp hinv'.nodup).2.1
  have hone : 0 < posted.length := List.length_pos_of_mem ((hinv.requested i).mpr (.inr hi))
  have hlength := congrArg List.length hsent
  rw [hinv.order, hinv'.order]
  simp only [List.length_append, List.length_map] at hlength ⊢
  omega

/-- A packet longer than the device takes, and one behind it. -/
def sendLong : List Act :=
  [.call [1, 2, 3], .look, .fill, .len, .request, .refuse, .sendReturns false, .call [4], .look,
    .fill, .len, .request, .sendReturns true]

theorem tx_refused_stops_long :
    ∃ s, (ring 2).Reachable s ∧ s.accepted = [[1, 2, 3], [4]] ∧
      ∀ as s', (ring 2).run s as = some s' → s'.wire = [] := by
  have hrun :
      ((ring 2).run start sendLong).map (fun s => (s.accepted, s.status 0, s.wire, s.queue)) =
      some ([[1, 2, 3], [4]], .wrongFormat, [], []) := by decide +kernel
  obtain ⟨s, hs, hview⟩ := Option.map_eq_some_iff.mp hrun
  have hreach : (ring 2).Reachable s := System.reachable_of_run (.init rfl) hs
  simp only [Prod.mk.injEq] at hview
  obtain ⟨haccepted, hstatus, hwire, hqueue⟩ := hview
  refine ⟨s, hreach, haccepted, fun as s' hrun => ?_⟩
  have hsent := (tx_refused_stops hreach hstatus hrun).1
  rw [hwire, hqueue] at hsent
  exact (List.append_eq_nil_iff.mp hsent).1

end Linuxyz.RawIp.TxRing
