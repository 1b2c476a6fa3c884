import Linuxyz.AsyncPool.Pool
import Linuxyz.Lib.Buffer

/-!
# Linuxyz.AsyncPool.Routing

The whole server of `dev-sock-epoll-tcp-async-pool`: the epoll thread reads a
block from a ready descriptor and pushes it onto the pool of the descriptor's
position in the event list, the worker of that pool hands it on to the writer
pool of the same index, and the writer of that pool writes it.

A pool has one `fd` for all its buffers, the descriptor of the last push.  A
pop takes the buffer pushed last, so the two belong together as long as a push
precedes every pop; a spurious wakeup pops an older buffer under the `fd` of a
newer one.  The writer frees the whole array of its pool instead of the buffer
it popped, so that the next push there stores into freed memory.
-/

namespace Linuxyz.AsyncPool

open Buffer

/-- `MAX_CONN`: the pools of each kind. -/
abbrev maxConn : Nat := 80

/-! ## reading a block -/

/-- What a `read` returns: -1, or the bytes it stored, none at end of file. -/
inductive ReadResult where
  | error
  | bytes (bs : List UInt8)
deriving DecidableEq, Repr

/-- The bytes of a sequence of reads. -/
def received : List ReadResult → List UInt8
  | [] => []
  | .error :: rs => received rs
  | .bytes bs :: rs => bs ++ received rs

/-- The loop of `handle_client` over the results of its reads: the buffer and
`done` at its end.  It ends only with `valread` at `MAX_BUFF`, whatever the
reads return; `none` when it does not end with these reads, or stores outside
`buff`. -/
def readLoop : List ReadResult → Int → List UInt8 → Bool → Option (List UInt8 × Bool)
  | [], valread, buff, done => if valread = maxBuff then some (buff, done) else none
  | r :: rs, valread, buff, done =>
      if valread = maxBuff then none
      else match r with
        | .error => readLoop rs (valread - 1) buff true
        | .bytes [] => readLoop rs valread buff true
        | .bytes (b :: bs) =>
            if 0 ≤ valread ∧ valread + (b :: bs).length ≤ maxBuff then
              readLoop rs (valread + (b :: bs).length) (overwrite buff valread.toNat (b :: bs)) done
            else none

/-- A buffer read without error or end of file is what the reads returned. -/
theorem readLoop_eq {rs : List ReadResult} {valread : Int} {buff b : List UInt8}
    (hlen : buff.length = maxBuff) (h : readLoop rs valread buff done = some (b, false)) :
    done = false ∧ b = buff.take valread.toNat ++ received rs := by
  induction rs generalizing valread buff done with
  | nil =>
      simp only [readLoop, Option.ite_none_right_eq_some, Option.some.injEq, Prod.mk.injEq] at h
      obtain ⟨hval, rfl, hdone⟩ := h
      refine ⟨hdone, ?_⟩
      rw [hval, Int.toNat_natCast, ← hlen, List.take_length, received, List.append_nil]
  | cons r rs ih =>
      match r with
      | .error =>
          simp only [readLoop, Option.ite_none_left_eq_some] at h
          cases (ih hlen h.2).1
      | .bytes [] =>
          simp only [readLoop, Option.ite_none_left_eq_some] at h
          cases (ih hlen h.2).1
      | .bytes (a :: bs) =>
          simp only [readLoop, Option.ite_none_left_eq_some, Option.ite_none_right_eq_some] at h
          obtain ⟨-, ⟨hpos, hfit⟩, h⟩ := h
          have hroom : valread.toNat + (a :: bs).length ≤ buff.length := by omega
          obtain ⟨hdone, hb⟩ := ih ((length_overwrite hroom).trans hlen) h
          have hn : (valread + (a :: bs).length).toNat = valread.toNat + (a :: bs).length := by
            omega
          refine ⟨hdone, ?_⟩
          rw [hb, hn, take_overwrite_add (by omega), received, List.append_assoc]

/-! ## the server -/

/-- The two kinds of pools: `APOOL` with its workers, `AWPOOL` with its
writers. -/
inductive Kind where
  | worker
  | writer
deriving DecidableEq, Repr

/-- A pool and its thread, which after a pop holds a descriptor and a copy of
the buffer. -/
structure Station where
  pool : Pool (List UInt8)
  thread : Stage (Int × List UInt8)

/-- `to_worker` and `to_writer`, unless the pool is full. -/
def Station.push (st : Station) (fd : Int) (b : List UInt8) : Option Station :=
  if st.pool.dataIdx = maxBuff then none else some ⟨st.pool.push fd b, st.thread.signal⟩

/-- What a thread leaves in the pool: `worker` frees the buffer it popped,
`writer` the array. -/
def Kind.release (p : Pool (List UInt8)) : Kind → Pool (List UInt8)
  | .worker => p.pop
  | .writer => ⟨p.fd, fun _ => none, p.dataIdx - 1, false⟩

/-- The critical section of `worker` and `writer` after the wait; where the pool
holds no buffer they copy whatever bytes they find. -/
def Station.wake (k : Kind) (st : Station) (found : List UInt8) : Station :=
  if st.pool.dataIdx < 0 then { st with thread := .lock }
  else ⟨k.release st.pool, .busy (st.pool.fd, st.pool.top.getD found)⟩

/-- The server: its pools, what `handle_client` read and what the writers
wrote, each with its descriptor. -/
structure Server where
  station : Kind → Fin maxConn → Station
  reads : List (Int × List UInt8)
  written : List (Int × List UInt8)

def Server.start : Server := ⟨fun _ _ => ⟨.start, .lock⟩, [], []⟩

def Server.set (s : Server) (k : Kind) (i : Fin maxConn) (st : Station) : Server :=
  { s with station := fun k' i' => if k' = k ∧ i' = i then st else s.station k' i' }

/-- A step of a thread, or the epoll thread in `handle_client`. -/
inductive Step where
  /-- `handle_client(i)` for the descriptor `fd`, whose reads return `rs` -/
  | handleClient (i : Fin maxConn) (fd : Int) (rs : List ReadResult)
  /-- the thread locks the mutex and waits -/
  | wait (k : Kind) (i : Fin maxConn)
  /-- `pthread_cond_wait` returns without a signal -/
  | spurious (k : Kind) (i : Fin maxConn)
  /-- the critical section after the wait -/
  | wake (k : Kind) (i : Fin maxConn) (found : List UInt8)
  /-- a worker calls `to_writer`, a writer writes -/
  | finish (k : Kind) (i : Fin maxConn)

/-- `handle_client`: a block that is complete goes to the pool of its position,
after an error or end of file the descriptor is closed. -/
def handleClient (s : Server) (i : Fin maxConn) (fd : Int) (rs : List ReadResult) : Option Server :=
  match readLoop rs 0 (List.replicate maxBuff 0) false with
  | none => none
  | some (_, true) => some s
  | some (buff, false) =>
      ((s.station .worker i).push fd buff).map fun st =>
        { s.set .worker i st with reads := s.reads ++ [(fd, received rs)] }

/-- What a thread does with the buffer it popped. -/
def finish (s : Server) (i : Fin maxConn) (item : Int × List UInt8) : Kind → Option Server
  | .worker =>
      ((s.station .writer i).push item.1 item.2).map fun st =>
        (s.set .worker i ⟨(s.station .worker i).pool, .lock⟩).set .writer i st
  | .writer =>
      some { s.set .writer i ⟨(s.station .writer i).pool, .lock⟩ with
        written := s.written ++ [item] }

def server : System Server Step where
  init s := s = .start
  step s
    | .handleClient i fd rs => handleClient s i fd rs
    | .wait k i =>
        if (s.station k i).thread = .lock then some (s.set k i ⟨(s.station k i).pool, .waiting⟩)
        else none
    | .spurious k i =>
        if (s.station k i).thread = .waiting then some (s.set k i ⟨(s.station k i).pool, .woken⟩)
        else none
    | .wake k i found =>
        if (s.station k i).thread = .woken then some (s.set k i ((s.station k i).wake k found))
        else none
    | .finish k i =>
        match (s.station k i).thread with
        | .busy item => finish s i item k
        | _ => none

/-- No wakeup is spurious, and a push stores into a slot of an array that was
not freed. -/
def Orderly (s : Server) : Step → Prop
  | .handleClient i _ _ =>
      (s.station .worker i).pool.InArray ((s.station .worker i).pool.dataIdx + 1)
  | .finish .worker i => (s.station .writer i).pool.InArray ((s.station .writer i).pool.dataIdx + 1)
  | .spurious _ _ => False
  | _ => True

instance decidableOrderly (s : Server) : (a : Step) → Decidable (Orderly s a)
  | .handleClient i _ _ =>
      inferInstanceAs
        (Decidable ((s.station .worker i).pool.InArray ((s.station .worker i).pool.dataIdx + 1)))
  | .finish .worker i =>
      inferInstanceAs
        (Decidable ((s.station .writer i).pool.InArray ((s.station .writer i).pool.dataIdx + 1)))
  | .spurious _ _ => .isFalse id
  | .wait _ _ | .wake _ _ _ | .finish .writer _ => .isTrue trivial

/-! ## the invariant -/

/-- The buffer a woken thread will pop, and the one a busy thread holds, were
read from the descriptor they go with. -/
structure Station.Routed (reads : List (Int × List UInt8)) (st : Station) : Prop where
  woken : st.thread = .woken → 0 ≤ st.pool.dataIdx ∧ ∃ b, st.pool.top = some b ∧
    (st.pool.fd, b) ∈ reads
  busy : ∀ item, st.thread = .busy item → item ∈ reads

structure Routed (s : Server) : Prop where
  station : ∀ k i, (s.station k i).Routed s.reads
  written : ∀ item ∈ s.written, item ∈ s.reads

theorem Station.Routed.mono {st : Station} (h : st.Routed reads)
    (hsub : ∀ item ∈ reads, item ∈ reads') : st.Routed reads' where
  woken hw := by
    obtain ⟨hpos, b, htop, hmem⟩ := h.woken hw
    exact ⟨hpos, b, htop, hsub _ hmem⟩
  busy item hitem := hsub _ (h.busy item hitem)

/-- A push inside the array, of a block that was read, leaves it on top for the thread
that is woken. -/
theorem Station.Routed.push {st st' : Station} (h : st.Routed reads) (hmem : (fd, b) ∈ reads)
    (hin : st.pool.InArray (st.pool.dataIdx + 1)) (hs : st.push fd b = some st') :
    st'.Routed reads := by
  simp only [Station.push, Option.ite_none_left_eq_some, Option.some.injEq] at hs
  obtain ⟨-, rfl⟩ := hs
  refine ⟨fun _ => ⟨hin.2.1, b, Pool.push_top hin, hmem⟩, fun item hitem => h.busy item ?_⟩
  cases hth : st.thread with
  | busy x => simpa [Stage.signal, hth] using hitem
  | lock | waiting | woken => simp [Stage.signal, hth] at hitem

theorem Station.Routed.wake {st : Station} (h : st.Routed reads)
    (hw : st.thread = .woken) (k : Kind) (found : List UInt8) : (st.wake k found).Routed reads := by
  obtain ⟨hpos, b, htop, hmem⟩ := h.woken hw
  rw [Station.wake, if_neg (Int.not_lt.mpr hpos), htop]
  refine ⟨fun he => (by cases he), fun item hitem => ?_⟩
  cases hitem
  exact hmem

/-- A thread that neither is woken nor holds a buffer needs nothing. -/
theorem Station.routed_of_thread {st : Station} (h : st.thread = .lock ∨ st.thread = .waiting) :
    st.Routed reads := by
  constructor
  · intro hw
    rcases h with h | h <;> rw [h] at hw <;> cases hw
  · intro item hitem
    rcases h with h | h <;> rw [h] at hitem <;> cases hitem

theorem Routed.set {s : Server} (h : Routed s) (hst : st.Routed s.reads) :
    Routed (s.set k i st) where
  station k' i' := by
    simp only [Server.set]
    split
    · exact hst
    · exact h.station k' i'
  written := h.written

/-- The receiver reads a block and pushes it for the worker. -/
theorem Routed.handleClient {s s' : Server} (h : Routed s)
    (hin : (s.station .worker i).pool.InArray ((s.station .worker i).pool.dataIdx + 1))
    (hs : handleClient s i fd rs = some s') : Routed s' := by
  rw [AsyncPool.handleClient] at hs
  split at hs
  · cases hs
  · cases hs
    exact h
  next buff hread =>
    obtain ⟨st, hst, rfl⟩ := Option.map_eq_some_iff.mp hs
    have hbuff : buff = received rs := (readLoop_eq List.length_replicate hread).2
    have hsub : ∀ item ∈ s.reads, item ∈ s.reads ++ [(fd, received rs)] :=
      fun _ => List.mem_append_left _
    have hread : Routed { s with reads := s.reads ++ [(fd, received rs)] } :=
      ⟨fun k i => (h.station k i).mono hsub, fun item hitem => hsub item (h.written item hitem)⟩
    exact hread.set ((hread.station .worker i).push (by simp [hbuff]) hin hst)

/-- A thread hands its item on: a worker to the writer, a writer to the connection. -/
theorem Routed.finish {s s' : Server} {k : Kind} (h : Routed s) (hitem : item ∈ s.reads)
    (hin : k = .worker →
      (s.station .writer i).pool.InArray ((s.station .writer i).pool.dataIdx + 1))
    (hs : finish s i item k = some s') : Routed s' := by
  cases k with
  | worker =>
      obtain ⟨st, hst, rfl⟩ := Option.map_eq_some_iff.mp hs
      have hpushed := (h.station .writer i).push hitem (hin rfl) hst
      exact (h.set (Station.routed_of_thread (.inl rfl))).set hpushed
  | writer =>
      cases hs
      have hdone : Routed (s.set .writer i ⟨(s.station .writer i).pool, .lock⟩) :=
        h.set (Station.routed_of_thread (.inl rfl))
      exact ⟨hdone.station, List.forall_mem_append.mpr ⟨h.written,
        List.forall_mem_singleton.mpr hitem⟩⟩

/-- One orderly step of the server. -/
theorem routed_step {s s' : Server} {a : Step} (h : Routed s) (ha : Orderly s a)
    (hs : server.step s a = some s') : Routed s' := by
  cases a with
  | handleClient i fd rs => exact h.handleClient ha hs
  | spurious k i => exact absurd ha id
  | wait k i =>
      simp only [server, Option.ite_none_right_eq_some, Option.some.injEq] at hs
      obtain ⟨-, rfl⟩ := hs
      exact h.set (Station.routed_of_thread (.inr rfl))
  | wake k i found =>
      simp only [server, Option.ite_none_right_eq_some, Option.some.injEq] at hs
      obtain ⟨hw, rfl⟩ := hs
      exact h.set ((h.station k i).wake hw k found)
  | finish k i =>
      simp only [server] at hs
      split at hs
      next item hbusy =>
        refine h.finish ((h.station k i).busy item hbusy) ?_ hs
        rintro rfl
        exact ha
      · cases hs

/-- **Responses go to the descriptor their bytes came from.**  In every run
without spurious wakeups in which each push finds a slot in an array that was
not freed, every buffer a writer wrote to a descriptor is a block that one
`handle_client` read from that descriptor. -/
theorem responses_routed_of_orderly {as : List Step} {s : Server}
    (has : server.Meets Orderly .start as) (hrun : server.run .start as = some s) :
    ∀ item ∈ s.written, item ∈ s.reads := by
  have hstart : Routed .start :=
    ⟨fun k i => Station.routed_of_thread (.inl rfl), fun item hitem => by cases hitem⟩
  exact (has.invariant (I := Routed) (fun _ _ _ h ha hs => routed_step h ha hs) hstart hrun).written

/-- A block of one byte value, read at once. -/
def block (b : UInt8) : List ReadResult := [.bytes (List.replicate maxBuff b)]

/-- One block on its way through both pools. -/
def oneBlock : List Step :=
  [.wait .worker 0, .wait .writer 0, .handleClient 0 7 (block 1), .wake .worker 0 [],
    .finish .worker 0, .wake .writer 0 [], .finish .writer 0]

theorem responses_routed_oneBlock :
    ∃ s, server.run .start oneBlock = some s ∧ s.written = [(7, List.replicate maxBuff 1)] ∧
      ∀ item ∈ s.written, item ∈ s.reads := by
  have has : server.Meets Orderly .start oneBlock := by decide +kernel
  have hrun :
      (server.run .start oneBlock).map (·.written) = some [(7, List.replicate maxBuff 1)] := by
    decide +kernel
  obtain ⟨s, hs, hwritten⟩ := Option.map_eq_some_iff.mp hrun
  exact ⟨s, hs, hwritten, responses_routed_of_orderly has hs⟩

/-- Blocks of 7 and 8 at the same position, each pool popped twice by wakeups
without a signal. -/
def twoBlocks : List Step :=
  [.handleClient 0 7 (block 1), .handleClient 0 8 (block 2),
    .wait .worker 0, .spurious .worker 0, .wake .worker 0 [], .finish .worker 0,
    .wait .worker 0, .spurious .worker 0, .wake .worker 0 [], .finish .worker 0,
    .wait .writer 0, .spurious .writer 0, .wake .writer 0 [], .finish .writer 0]

/-- The block read from descriptor 7 is written to descriptor 8. -/
theorem response_to_other_descriptor :
    ∃ s, server.run .start twoBlocks = some s ∧
      s.reads = [(7, List.replicate maxBuff 1), (8, List.replicate maxBuff 2)] ∧
      s.written = [(8, List.replicate maxBuff 1)] ∧ (8, List.replicate maxBuff 1) ∉ s.reads := by
  have hrun : (server.run .start twoBlocks).map (fun s => (s.reads, s.written)) =
      some ([(7, List.replicate maxBuff 1), (8, List.replicate maxBuff 2)],
        [(8, List.replicate maxBuff 1)]) := by
    decide +kernel
  obtain ⟨s, hs, hlogs⟩ := Option.map_eq_some_iff.mp hrun
  have hreads : s.reads = [(7, List.replicate maxBuff 1), (8, List.replicate maxBuff 2)] :=
    congrArg Prod.fst hlogs
  exact ⟨s, hs, hreads, congrArg Prod.snd hlogs, by rw [hreads]; decide +kernel⟩

end Linuxyz.AsyncPool
