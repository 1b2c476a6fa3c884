import Linuxyz.IoUring.Request
import Linuxyz.Lib.Counting
import Linuxyz.Lib.Heap
import Linuxyz.Lib.System

/-!
# Linuxyz.IoUring.Server

`server_loop` of `dev-sock-io-uring-http` beside the kernel, which completes the requests in
flight in any order: an accept with a new socket, a read with the bytes of a client, a write
with the number of bytes that went out, or each of them with an error.

The `user_data` of a completion is the address of a `struct request` in the heap, which says
what was requested.  The server never mixes them up, and frees each block once
(`server_safe`); but it closes a socket only when it has answered, so that the sockets of
clients that close first or ask for something else than GET stay open (`abandoned_for_ever`).
-/

namespace Linuxyz.IoUring

open List (cons_append count_append count_cons count_nil map_append mem_append mem_append_left
  mem_append_right mem_cons_self mem_singleton perm_iff_count)

/-! ## Memory -/

/-- `http_200_content` -/
def http200Content : List UInt8 :=
  ("HTTP/1.0 200 OK\r\nContent-type: text/html\r\n\r\n<html><head><title>Hi</title></head><body>" ++
    "<h1>IO URING</h1><p>Served by io_uring</p></body></html>").toList.map
      fun c => UInt8.ofNat c.toNat

/-- A `struct request`, by its `event_type`. -/
inductive Request where
  | accept
  | read (clientSocket iovBase : Nat)
  | write (clientSocket iovBase : Nat)
deriving DecidableEq, Repr

inductive Block where
  | request (r : Request)
  | buffer (bytes : List UInt8)
deriving DecidableEq, Repr

/-- What the kernel has been asked for.  It knows a socket by its connection, which it has
looked up when the request was submitted. -/
inductive Op where
  | accept
  | read (conn : Option Nat) (buf : Nat)
  | write (conn : Option Nat) (buf len : Nat)
deriving DecidableEq, Repr

structure Sqe where
  op : Op
  userData : Nat
deriving DecidableEq, Repr

inductive Status where
  | running
  /-- after `exit(1)` -/
  | exited
  /-- after an access through a null pointer -/
  | crashed
  /-- after an access to a block that was not live, or outside of one -/
  | corrupted
deriving DecidableEq, Repr

structure Sys where
  status : Status
  inflight : List Sqe
  heap : Heap Block
  /-- the sockets that are open, with their connections -/
  opened : List (Nat × Nat)
  /-- how many connections have been accepted -/
  conns : Nat
  /-- what has been read, by connection -/
  asked : List (Nat × List UInt8)
  /-- what has been written before the socket was closed, by connection -/
  answered : List (Nat × List UInt8)
  /-- the connections that the server has no request for any more -/
  abandoned : List Nat
  /-- blocks that the server has no pointer to any more -/
  leaked : List Nat

/-! ## The functions of the server -/

def Sys.submit (s : Sys) (op : Op) (userData : Nat) : Sys :=
  { s with inflight := s.inflight ++ [⟨op, userData⟩] }

def Sys.malloc (s : Sys) (b : Block) : Sys := { s with heap := s.heap.malloc b }

def Sys.free (s : Sys) (a : Nat) : Option Sys :=
  (s.heap.free a).map fun heap => { s with heap := heap }

/-- The connection of a socket. -/
def Sys.owner (s : Sys) (fd : Nat) : Option Nat := s.opened.lookup fd

def addAcceptRequest (s : Sys) : Sys := (s.malloc (.request .accept)).submit .accept s.heap.next

def addReadRequest (s : Sys) (clientSocket : Nat) : Sys :=
  let req := s.heap.next
  let base := req + 1
  let s := (s.malloc (.request (.read clientSocket base))).malloc (.buffer (readBuffer []))
  s.submit (.read (s.owner clientSocket) base) req

/-- `_send_static_string_content` and `add_write_request` -/
def sendStaticStringContent (s : Sys) (str : List UInt8) (clientSocket : Nat) : Sys :=
  let req := s.heap.next
  let base := req + 1
  let s := (s.malloc (.request (.write clientSocket base))).malloc (.buffer str)
  s.submit (.write (s.owner clientSocket) base str.length) req

def Sys.close (s : Sys) (fd : Nat) : Sys := { s with opened := s.opened.filter (·.1 ≠ fd) }

/-- The server has done with a connection and has not closed it. -/
def Sys.abandon (s : Sys) (fd : Nat) : Sys :=
  { s with abandoned := s.abandoned ++ (s.owner fd).toList }

/-- The case `EVENT_TYPE_READ` of a request that is not empty. -/
def serveRequest (s : Sys) (req fd base : Nat) : Option Sys :=
  match s.heap.block base with
  | some (.buffer bytes) =>
      match handleClientRequest bytes with
      | none => none
      | some .exit => some { s with status := .exited }
      | some .crash => some { s with status := .crashed }
      | some (.respond _) =>
          ((sendStaticStringContent s http200Content fd).free base).bind (·.free req)
      | some .ignore => ((s.abandon fd).free base).bind (·.free req)
  | _ => none

/-- The `switch` of `server_loop` on a completion with result `res`. -/
def serve (s : Sys) (req res : Nat) : Option Sys :=
  match s.heap.block req with
  | some (.request .accept) => (addReadRequest (addAcceptRequest s) res).free req
  | some (.request (.read fd base)) =>
      if res = 0 then some { s.abandon fd with leaked := s.leaked ++ [req, base] }
      else serveRequest s req fd base
  | some (.request (.write fd base)) => (s.free base).bind fun s => (s.close fd).free req
  | _ => none

/-! ## The kernel -/

/-- The result of a request. -/
inductive Res where
  | socket (fd : Nat)
  | bytes (data : List UInt8)
  | count (n : Nat)
  | error
deriving DecidableEq, Repr

/-- What the kernel does when it completes a request: the new state and `cqe->res`.  At most
`limit` sockets can be open. -/
def kernel (limit : Nat) (s : Sys) : Op → Res → Option (Sys × Nat)
  | .accept, .socket fd =>
      if fd ∉ s.opened.map Prod.fst ∧ s.opened.length < limit then
        some ({ s with opened := s.opened ++ [(fd, s.conns)], conns := s.conns + 1 }, fd)
      else none
  | .read (some conn) buf, .bytes data =>
      if data.length ≤ readSz then
        match s.heap.store buf (.buffer (readBuffer data)) with
        | some heap =>
            let asked := if data = [] then s.asked else s.asked ++ [(conn, data)]
            some ({ s with heap := heap, asked := asked }, data.length)
        | none => some ({ s with status := .corrupted }, data.length)
      else none
  | .write (some conn) buf len, .count n =>
      if n ≤ len then
        match s.heap.block buf with
        | some (.buffer bytes) =>
            some ({ s with answered := s.answered ++ [(conn, bytes.take n)] }, n)
        | _ => some ({ s with status := .corrupted }, n)
      else none
  | _, _ => none

/-- A request in flight is completed, and the server serves it. -/
structure Act where
  index : Nat
  res : Res
deriving DecidableEq, Repr

def step (limit : Nat) (s : Sys) (a : Act) : Option Sys :=
  if s.status = .running then
    match s.inflight[a.index]? with
    | none => none
    | some sqe =>
        if a.res = .error then some { s with status := .exited }
        else
          (kernel limit { s with inflight := s.inflight.eraseIdx a.index } sqe.op a.res).map
            fun (s, res) =>
              if s.status = .running then
                (serve s sqe.userData res).getD { s with status := .corrupted }
              else s
  else none

def start : Sys :=
  addAcceptRequest
    { status := .running
      inflight := []
      heap := .empty
      opened := []
      conns := 0
      asked := []
      answered := []
      abandoned := []
      leaked := [] }

def server (limit : Nat) : System Sys Act where
  init s := s = start
  step := step limit

variable {limit accepts : Nat} {s s' : Sys} {q : Sqe} {extra busy : List Nat}

/-! ## The invariant -/

/-- The blocks that belong to a request in flight. -/
def Sqe.blocks (q : Sqe) : List Nat :=
  match q.op with
  | .accept => [q.userData]
  | .read _ buf => [q.userData, buf]
  | .write _ buf _ => [q.userData, buf]

/-- The connection of a request in flight. -/
def Sqe.conn (q : Sqe) : Option Nat :=
  match q.op with
  | .accept => none
  | .read conn _ => conn
  | .write conn _ _ => conn

/-- A request that is answered. -/
def Answers (data : List UInt8) : Prop :=
  ∃ path, handleClientRequest (readBuffer data) = some (.respond path)

/-- The `struct request` of a request in flight and its buffer are in the heap, and its socket
is open. -/
def Matched (s : Sys) (q : Sqe) : Prop :=
  match q.op with
  | .accept => s.heap.block q.userData = some (.request .accept)
  | .read conn buf =>
      ∃ fd c, conn = some c ∧ s.heap.block q.userData = some (.request (.read fd buf)) ∧
        (fd, c) ∈ s.opened ∧
        s.heap.block buf = some (.buffer (readBuffer [])) ∧ c ∉ s.asked.map Prod.fst
  | .write conn buf len =>
      ∃ fd c, conn = some c ∧ s.heap.block q.userData = some (.request (.write fd buf)) ∧
        (fd, c) ∈ s.opened ∧
        s.heap.block buf = some (.buffer http200Content) ∧ len = http200Content.length ∧
        ∃ data, (c, data) ∈ s.asked ∧ Answers data

/-- The blocks `extra` and the connections `busy` are those of a request that is being served,
and `accepts` accepts are in flight. -/
structure Inv (limit : Nat) (s : Sys) (extra busy : List Nat) (accepts : Nat) : Prop where
  owns : s.heap.Owns (extra ++ s.inflight.flatMap Sqe.blocks ++ s.leaked)
  matched : ∀ q ∈ s.inflight, Matched s q
  accepts : s.inflight.countP (·.op = .accept) = accepts
  conns : (busy ++ s.inflight.filterMap Sqe.conn ++ s.abandoned).Perm (s.opened.map Prod.snd)
  fds : (s.opened.map Prod.fst).Nodup
  all : (s.opened.map Prod.snd ++ s.answered.map Prod.fst).Perm (List.range s.conns)
  asked : ∀ p ∈ s.asked, p.1 < s.conns
  answered : ∀ a ∈ s.answered, a.2 <+: http200Content ∧ ∃ data, (a.1, data) ∈ s.asked ∧ Answers data
  limit : s.opened.length ≤ limit

/-- What a request in flight needs: its blocks, its socket, and what has been asked. -/
theorem Matched.congr (h : Matched s q) (hheap : ∀ a ∈ q.blocks, s'.heap.block a = s.heap.block a)
    (hopened : ∀ c fd, q.conn = some c → (fd, c) ∈ s.opened → (fd, c) ∈ s'.opened)
    (hasked : ∀ p ∈ s.asked, p ∈ s'.asked)
    (hnew : ∀ c, q.conn = some c → c ∉ s.asked.map Prod.fst →
      c ∉ s'.asked.map Prod.fst) : Matched s' q := by
  obtain ⟨op, userData⟩ := q
  cases op with
  | accept => exact (hheap _ mem_cons_self).trans h
  | read conn buf =>
      obtain ⟨fd, c, rfl, hreq, hfd, hbuf, hc⟩ := h
      exact ⟨fd, c, rfl, (hheap _ mem_cons_self).trans hreq, hopened c fd rfl hfd,
        (hheap _ (List.mem_cons_of_mem _ mem_cons_self)).trans hbuf, hnew c rfl hc⟩
  | write conn buf len =>
      obtain ⟨fd, c, rfl, hreq, hfd, hbuf, hlen, data, hdata, hanswers⟩ := h
      exact ⟨fd, c, rfl, (hheap _ mem_cons_self).trans hreq, hopened c fd rfl hfd,
        (hheap _ (List.mem_cons_of_mem _ mem_cons_self)).trans hbuf, hlen, data,
        hasked _ hdata, hanswers⟩

/-- Only the memory has changed. -/
theorem Matched.congr_heap (h : Matched s q)
    (hheap : ∀ a ∈ q.blocks, s'.heap.block a = s.heap.block a) (hopened : s'.opened = s.opened)
    (hasked : s'.asked = s.asked) : Matched s' q :=
  h.congr hheap (fun _ _ _ hfd => hopened ▸ hfd) (fun _ hp => hasked ▸ hp) fun _ _ hc => hasked ▸ hc

/-! ## Memory -/

variable {a : Nat}

theorem Inv.mem_blocks (h : Inv limit s extra busy accepts) (hq : q ∈ s.inflight)
    (ha : a ∈ q.blocks) : a ∉ extra ∧ ∃ b, s.heap.block a = some b := by
  have hmem : a ∈ s.inflight.flatMap Sqe.blocks := List.mem_flatMap.mpr ⟨q, hq, ha⟩
  refine ⟨fun hextra => ?_,
    (h.owns.live a).mp (mem_append_left _ (mem_append_right _ hmem))⟩
  have hnodup := (List.nodup_append.mp h.owns.nodup).1
  exact (List.nodup_append.mp hnodup).2.2 a hextra a hmem rfl

/-- A block that is freed is no other request's. -/
theorem Inv.free (h : Inv limit s (a :: extra) busy accepts) :
    ∃ heap, s.free a = some { s with heap := heap } ∧
      Inv limit { s with heap := heap } extra busy accepts := by
  obtain ⟨heap, hfree, howns, hother⟩ := Heap.Owns.free h.owns
  refine ⟨heap, by rw [Sys.free, hfree]; rfl, { h with owns := howns, matched := fun q hq => ?_ }⟩
  refine (h.matched q hq).congr_heap (fun b hb => hother b ?_) rfl rfl
  rintro rfl
  exact (h.mem_blocks hq hb).1 mem_cons_self

/-- A new block is nobody's yet. -/
theorem Inv.malloc (h : Inv limit s extra busy accepts) (b : Block) :
    Inv limit (s.malloc b) (s.heap.next :: extra) busy accepts := by
  refine { h with owns := Heap.Owns.malloc h.owns b, matched := fun q hq => ?_ }
  refine (h.matched q hq).congr_heap (fun a ha => Heap.block_malloc_of_ne _ _ ?_) rfl rfl
  obtain ⟨b, hlive⟩ := (h.mem_blocks hq ha).2
  exact Heap.ne_next_of_live hlive

/-- Blocks and a connection become those of a new request. -/
theorem Inv.submit {extra' busy' : List Nat} (h : Inv limit s extra busy accepts)
    (hextra : extra.Perm (q.blocks ++ extra')) (hbusy : busy.Perm (q.conn.toList ++ busy'))
    (hq : Matched s q) :
    Inv limit (s.submit q.op q.userData) extra' busy' (accepts + [q].countP (·.op = .accept)) where
  owns := by
    obtain ⟨op, userData⟩ := q
    refine h.owns.perm (List.perm_iff_count.mpr fun a => ?_)
    simp only [Sys.submit, List.flatMap_append, List.flatMap_singleton, count_append,
      hextra.count_eq]
    omega
  matched := by
    intro q' hq'
    rcases List.mem_append.mp hq' with hq' | hq'
    · exact (h.matched q' hq').congr_heap (fun _ _ => rfl) rfl rfl
    · cases List.mem_singleton.mp hq'
      exact hq.congr_heap (fun _ _ => rfl) rfl rfl
  accepts := by
    rw [← h.accepts]
    exact List.countP_append
  conns := by
    refine .trans (List.perm_iff_count.mpr fun c => ?_) h.conns
    have hone : [q].filterMap Sqe.conn = q.conn.toList := by
      cases hconn : q.conn <;> simp [hconn]
    simp only [Sys.submit, List.filterMap_append, hone, count_append, hbusy.count_eq]
    omega
  fds := h.fds
  all := h.all
  asked := h.asked
  answered := h.answered
  limit := h.limit

theorem Inv.perm {extra' busy' : List Nat} (h : Inv limit s extra busy accepts)
    (hextra : extra.Perm extra') (hbusy : busy.Perm busy') : Inv limit s extra' busy' accepts :=
  { h with
    owns := h.owns.perm ((hextra.append_right _).append_right _)
    conns := ((hbusy.symm.append_right _).append_right _).trans h.conns }

variable {fd c : Nat}

theorem Inv.owner (h : Inv limit s extra busy accepts) (hfd : (fd, c) ∈ s.opened) :
    s.owner fd = some c := lookup_of_mem h.fds hfd

/-! ## The functions of the server keep it -/

theorem Inv.addAcceptRequest (h : Inv limit s extra busy accepts) :
    Inv limit (addAcceptRequest s) extra busy (accepts + 1) :=
  (h.malloc (.request .accept)).submit (q := ⟨.accept, s.heap.next⟩) (.refl _) (.refl _)
    (Heap.block_malloc_self ..)

/-- A `struct request` and a buffer, as they are allocated for a read or a write. -/
theorem Inv.malloc_two (h : Inv limit s extra busy accepts) (r : Request) (bytes : List UInt8) :
    let s' := (s.malloc (.request r)).malloc (.buffer bytes)
    Inv limit s' ([s.heap.next, s.heap.next + 1] ++ extra) busy accepts ∧
      s'.heap.block s.heap.next = some (.request r) ∧
      s'.heap.block (s.heap.next + 1) = some (.buffer bytes) := by
  refine ⟨((h.malloc _).malloc _).perm (.swap ..) (.refl _), ?_, Heap.block_malloc_self ..⟩
  exact Heap.block_malloc_of_live (Heap.block_malloc_self ..) _

/-- A new request to read from a connection that has not asked yet. -/
theorem Inv.addReadRequest (h : Inv limit s extra (c :: busy) accepts) (hfd : (fd, c) ∈ s.opened)
    (hc : c ∉ s.asked.map Prod.fst) : Inv limit (addReadRequest s fd) extra busy accepts := by
  obtain ⟨hinv, hreq, hbuf⟩ := h.malloc_two (.read fd (s.heap.next + 1)) (readBuffer [])
  have howner : Sys.owner _ fd = some c := hinv.owner hfd
  have hsubmit :=
    hinv.submit (q := ⟨.read (some c) (s.heap.next + 1), s.heap.next⟩) (.refl _) (.refl _)
    ⟨fd, c, rfl, hreq, hfd, hbuf, hc⟩
  rw [← howner] at hsubmit
  exact hsubmit

variable {data : List UInt8}

/-- A new request to write the page to a connection that has asked for it. -/
theorem Inv.sendStaticStringContent (h : Inv limit s extra (c :: busy) accepts)
    (hfd : (fd, c) ∈ s.opened) (hasked : (c, data) ∈ s.asked) (hdata : Answers data) :
    Inv limit (sendStaticStringContent s http200Content fd) extra busy accepts := by
  obtain ⟨hinv, hreq, hbuf⟩ := h.malloc_two (.write fd (s.heap.next + 1)) http200Content
  have howner : Sys.owner _ fd = some c := hinv.owner hfd
  have hsubmit :=
    hinv.submit (q := ⟨.write (some c) (s.heap.next + 1) http200Content.length,
      s.heap.next⟩) (.refl _)
    (.refl _) ⟨fd, c, rfl, hreq, hfd, hbuf, rfl, data, hasked, hdata⟩
  rw [← howner] at hsubmit
  exact hsubmit

theorem Inv.abandon (h : Inv limit s extra (c :: busy) accepts) (hfd : (fd, c) ∈ s.opened) :
    Inv limit (s.abandon fd) extra busy accepts := by
  rw [Sys.abandon, h.owner hfd]
  refine { h with
    matched := fun q hq => (h.matched q hq).congr_heap (fun _ _ => rfl) rfl rfl, conns := ?_ }
  refine .trans (List.perm_iff_count.mpr fun a => ?_) h.conns
  simp only [Option.toList_some, count_append, count_cons, count_nil]
  omega

/-- The two blocks of a request that has been served. -/
theorem Inv.free_two {b : Nat} (h : Inv limit s (a :: b :: extra) busy accepts) :
    ∃ heap, (s.free a).bind (·.free b) = some { s with heap := heap } ∧
      Inv limit { s with heap := heap } extra busy accepts := by
  obtain ⟨heap₁, hfree₁, h₁⟩ := h.free
  obtain ⟨heap₂, hfree₂, h₂⟩ := h₁.free
  exact ⟨heap₂, by rw [hfree₁, Option.bind_some, hfree₂], h₂⟩

/-- Blocks that the server forgets. -/
theorem Inv.leak (h : Inv limit s extra busy accepts) :
    Inv limit { s with leaked := s.leaked ++ extra } [] busy accepts := by
  refine { h with
    matched := fun q hq => (h.matched q hq).congr_heap (fun _ _ => rfl) rfl rfl
    owns := h.owns.perm (List.perm_iff_count.mpr fun a => ?_) }
  simp only [count_append, count_nil]
  omega

/-- The socket of a connection that has been answered is closed. -/
theorem Inv.close {bytes : List UInt8} (h : Inv limit s extra (c :: busy) accepts)
    (hfd : (fd, c) ∈ s.opened) (hbytes : bytes <+: http200Content) (hasked : (c, data) ∈ s.asked)
    (hdata : Answers data) :
    Inv limit { s.close fd with answered := s.answered ++ [(c, bytes)] } extra busy accepts := by
  have hperm := perm_cons_filter h.fds hfd
  have hconns := (h.conns.trans (hperm.map Prod.snd))
  rw [List.map_cons, cons_append, cons_append] at hconns
  have hnodup : (s.opened.map Prod.snd).Nodup :=
    (List.nodup_append.mp (h.all.nodup_iff.mpr List.nodup_range)).1
  refine { h with
    matched := fun q hq => ?_, conns := hconns.cons_inv, fds := ?_, all := ?_, answered := ?_,
    limit := ?_ }
  · refine (h.matched q hq).congr (fun _ _ => rfl) (fun c' fd' hc' hfd' => ?_) (fun _ hp => hp)
      fun _ _ hp => hp
    refine List.mem_filter.mpr ⟨hfd', decide_eq_true fun hsame => ?_⟩
    -- the connection of another request is another one
    have hcc : c' = c := by
      obtain rfl : fd' = fd := hsame
      exact Option.some.inj ((h.owner hfd').symm.trans (h.owner hfd))
    have hbusy := h.conns.nodup_iff.mpr hnodup
    rw [cons_append, cons_append, List.nodup_cons] at hbusy
    refine hbusy.1 (mem_append_left _ (mem_append_right _ ?_))
    exact List.mem_filterMap.mpr ⟨q, hq, hcc ▸ hc'⟩
  · exact (List.filter_sublist.map _).nodup h.fds
  · refine .trans (List.perm_iff_count.mpr fun a => ?_) h.all
    have hcount := (hperm.map Prod.snd).count_eq a
    simp only [Sys.close, map_append, List.map_cons, List.map_nil, count_append,
      count_cons, count_nil] at hcount ⊢
    omega
  · intro a ha
    rcases List.mem_append.mp ha with ha | ha
    · exact h.answered a ha
    · cases List.mem_singleton.mp ha
      exact ⟨hbytes, data, hasked, hdata⟩
  · exact (List.length_filter_le ..).trans h.limit

/-! ## Completions keep it -/

/-- A request leaves the list of those in flight, with what belongs to it. -/
theorem Inv.complete {i : Nat} (h : Inv limit s [] [] accepts) (hq : s.inflight[i]? = some q) :
    Inv limit { s with inflight := s.inflight.eraseIdx i } q.blocks q.conn.toList
      (accepts - [q].countP (·.op = .accept)) := by
  obtain ⟨hi, rfl⟩ := List.getElem?_eq_some_iff.mp hq
  have hperm := List.getElem_cons_eraseIdx_perm hi
  refine { h with
    owns := h.owns.perm (List.perm_iff_count.mpr fun a => ?_)
    matched :=
      fun q hq => (h.matched q (List.mem_of_mem_eraseIdx hq)).congr_heap (fun _ _ => rfl) rfl rfl
    accepts := ?_
    conns := .trans (List.perm_iff_count.mpr fun a => ?_) h.conns }
  · have hcount := (hperm.flatMap_right Sqe.blocks).count_eq a
    simp only [List.flatMap_cons, count_append, count_nil] at hcount ⊢
    omega
  · have hcount := hperm.countP_eq (fun q : Sqe => decide (q.op = .accept))
    rw [← h.accepts, ← hcount, List.countP_cons, List.countP_cons, List.countP_nil]
    change List.countP _ (s.inflight.eraseIdx i) = _
    omega
  · have hcount := (hperm.filterMap Sqe.conn).count_eq a
    rw [List.filterMap_cons] at hcount
    cases hconn : s.inflight[i].conn with
    | none =>
        simp only [hconn] at hcount
        simp [count_append, hcount]
    | some c =>
        simp only [hconn, count_cons] at hcount
        simp only [Option.toList_some, count_append, count_cons, count_nil]
        omega

/-- The connection that is being served is no other request's. -/
theorem Inv.ne_busy {c' : Nat} (h : Inv limit s extra (c :: busy) accepts) (hq : q ∈ s.inflight)
    (hconn : q.conn = some c') : c' ≠ c := by
  rintro rfl
  have hnodup :=
    h.conns.nodup_iff.mpr (List.nodup_append.mp (h.all.nodup_iff.mpr List.nodup_range)).1
  rw [cons_append, cons_append, List.nodup_cons] at hnodup
  exact hnodup.1 (mem_append_left _
    (mem_append_right _ (List.mem_filterMap.mpr ⟨q, hq, hconn⟩)))

/-- The kernel has accepted a connection. -/
theorem Inv.accept (h : Inv limit s extra busy accepts) (hfd : fd ∉ s.opened.map Prod.fst)
    (hlimit : s.opened.length < limit) :
    Inv limit { s with opened := s.opened ++ [(fd, s.conns)], conns := s.conns + 1 } extra
      (s.conns :: busy) accepts := by
  refine { h with
    matched := fun q hq => ?_, conns := ?_, fds := ?_, all := ?_, asked := ?_, limit := ?_ }
  · exact (h.matched q hq).congr (fun _ _ => rfl) (fun _ _ _ hmem => mem_append_left _ hmem)
      (fun _ hp => hp)
      fun _ _ hp => hp
  · rw [map_append]
    exact (h.conns.cons _).trans (List.perm_append_singleton ..).symm
  · rw [map_append]
    exact h.fds.append (List.nodup_singleton _) (List.disjoint_singleton.mpr hfd)
  · rw [List.range_succ]
    refine .trans (List.perm_iff_count.mpr fun a => ?_) (h.all.append_right _)
    simp only [map_append, List.map_cons, List.map_nil, count_append]
    omega
  · exact fun p hp => Nat.lt_succ_of_lt (h.asked p hp)
  · rw [List.length_append]
    exact hlimit

variable {req : Nat}

/-- The kernel has filled the buffer of a read request. -/
theorem Inv.fill {buf : Nat} {r : Request} (h : Inv limit s [req, buf] [c] accepts)
    (hreq : s.heap.block req = some (.request r)) (hc : c < s.conns) (data : List UInt8) :
    ∃ heap, s.heap.store buf (.buffer (readBuffer data)) = some heap ∧
      heap.block req = some (.request r) ∧ heap.block buf = some (.buffer (readBuffer data)) ∧
      Inv limit { s with heap := heap, asked := if data = [] then s.asked
        else s.asked ++ [(c, data)] } [req, buf] [c]
        accepts := by
  obtain ⟨b, hlive⟩ := (h.owns.live buf).mp (by simp)
  obtain ⟨heap, hstore, hbuf⟩ := Heap.store_of_live hlive (.buffer (readBuffer data))
  have hne : req ≠ buf := by
    have hnodup := h.owns.nodup
    simp only [List.append_assoc, cons_append, List.nodup_cons, List.mem_cons,
      not_or] at hnodup
    exact hnodup.1.1
  refine ⟨heap, hstore, (Heap.block_of_store hstore hne).trans hreq, hbuf,
    { h with owns := h.owns.store hstore, matched := fun q hq => ?_, asked := ?_, answered := ?_ }⟩
  · refine (h.matched q hq).congr (fun a ha => Heap.block_of_store hstore ?_)
      (fun _ _ _ hmem => hmem) (fun p hp => ?_)
      fun c' hc' hnot => ?_
    · rintro rfl
      exact (h.mem_blocks hq ha).1 (by simp)
    · dsimp only
      split
      · exact hp
      · exact mem_append_left _ hp
    · dsimp only
      split
      · exact hnot
      · rw [map_append, mem_append, not_or]
        exact ⟨hnot, fun hmem => h.ne_busy hq hc' (List.mem_singleton.mp hmem)⟩
  · intro p hp
    dsimp only at hp
    split at hp
    · exact h.asked p hp
    · rcases List.mem_append.mp hp with hp | hp
      · exact h.asked p hp
      · cases List.mem_singleton.mp hp
        exact hc
  · intro a ha
    obtain ⟨hbytes, data', hdata, hanswers⟩ := h.answered a ha
    refine ⟨hbytes, data', ?_, hanswers⟩
    dsimp only
    split
    · exact hdata
    · exact mem_append_left _ hdata

/-! ## The loop -/

/-- Memory is intact, and while the server runs one accept is in flight. -/
def Safe (limit : Nat) (s : Sys) : Prop :=
  s.status ≠ .corrupted ∧ (s.status = .running → Inv limit s [] [] 1)

theorem Inv.safe (h : Inv limit s [] [] 1) (hstatus : s.status = .running) : Safe limit s :=
  ⟨by simp [hstatus], fun _ => h⟩

theorem serve_accept (h : Inv limit s [req] [c] 0) (hstatus : s.status = .running)
    (hreq : s.heap.block req = some (.request .accept)) (hfd : (fd, c) ∈ s.opened)
    (hc : c ∉ s.asked.map Prod.fst) : ∃ s', serve s req fd = some s' ∧ Safe limit s' := by
  obtain ⟨heap, hfree, hinv⟩ := (h.addAcceptRequest.addReadRequest hfd hc).free
  exact ⟨_, by rw [serve, hreq]; exact hfree, hinv.safe hstatus⟩

/-- The loop on a read: it answers, leaves the connection open, or ends. -/
theorem serve_read {base : Nat} (h : Inv limit s [req, base] [c] 1) (hstatus : s.status = .running)
    (hreq : s.heap.block req = some (.request (.read fd base)))
    (hbuf : s.heap.block base = some (.buffer (readBuffer data))) (hfd : (fd, c) ∈ s.opened)
    (hasked : data ≠ [] → (c, data) ∈ s.asked) :
    ∃ s', serve s req data.length = some s' ∧ Safe limit s' := by
  simp only [serve, hreq]
  split
  · exact ⟨_, rfl, (h.abandon hfd).leak.safe hstatus⟩
  · next hne =>
      have hdata : data ≠ [] := fun hnil => hne (by rw [hnil]; rfl)
      have hswap : [req, base].Perm [base, req] := .swap ..
      obtain ⟨o, ho⟩ := exists_outcome data
      simp only [serveRequest, hbuf, ho]
      cases o with
      | exit | crash => exact ⟨_, rfl, by simp, fun hrun => by cases hrun⟩
      | respond path =>
          have hsend := h.sendStaticStringContent hfd (hasked hdata) ⟨path, ho⟩
          obtain ⟨heap, hfree, hinv⟩ := (hsend.perm hswap (.refl _)).free_two
          exact ⟨_, hfree, hinv.safe hstatus⟩
      | ignore =>
          obtain ⟨heap, hfree, hinv⟩ := ((h.abandon hfd).perm hswap (.refl _)).free_two
          exact ⟨_, hfree, hinv.safe hstatus⟩

/-- The loop on a write: it closes the connection and frees the request. -/
theorem serve_write {base n : Nat} (h : Inv limit s [req, base] [c] 1)
    (hstatus : s.status = .running) (hreq : s.heap.block req = some (.request (.write fd base)))
    (hfd : (fd, c) ∈ s.opened) (hasked : (c, data) ∈ s.asked) (hdata : Answers data) :
    ∃ s', serve { s with answered := s.answered ++ [(c, http200Content.take n)] } req n = some s' ∧
      Safe limit s' := by
  obtain ⟨heap₁, hfree₁, h₁⟩ := (h.perm (.swap ..) (.refl _)).free
  obtain ⟨heap₂, hfree₂, h₂⟩ := (h₁.close hfd (List.take_prefix n _) hasked hdata).free
  refine ⟨_, ?_, h₂.safe hstatus⟩
  simp only [Sys.free, Option.map_eq_some_iff] at hfree₁ hfree₂
  obtain ⟨heap, hheap, heq⟩ := hfree₁
  obtain rfl : heap = heap₁ := congrArg Sys.heap heq
  obtain ⟨heap', hheap', heq'⟩ := hfree₂
  obtain rfl : heap' = heap₂ := congrArg Sys.heap heq'
  simp only [serve, hreq, Sys.free, hheap, Option.map_some, Option.bind_some]
  exact congrArg (Option.map _) hheap'

/-- The kernel completes a request that the invariant describes, and the server serves it. -/
theorem serve_kernel {i res : Nat} {r : Res} {s₁ : Sys} (h : Inv limit s [] [] 1)
    (hstatus : s.status = .running) (hq : s.inflight[i]? = some q)
    (hkernel : kernel limit { s with inflight := s.inflight.eraseIdx i } q.op r = some (s₁, res)) :
    s₁.status = .running ∧ ∃ s', serve s₁ q.userData res = some s' ∧ Safe limit s' := by
  have hdone := h.complete hq
  have hmatched := h.matched q (List.mem_of_getElem? hq)
  obtain ⟨op, req⟩ := q
  dsimp only at hkernel
  unfold kernel at hkernel
  split at hkernel
  · -- a new connection
    next fd =>
      rw [Option.ite_none_right_eq_some] at hkernel
      obtain ⟨⟨hfd, hlimit⟩, hkernel⟩ := hkernel
      cases hkernel
      have hc : s.conns ∉ s.asked.map Prod.fst := fun hmem => by
        obtain ⟨p, hp, heq⟩ := List.mem_map.mp hmem
        exact absurd (h.asked p hp) (by omega)
      exact ⟨hstatus, serve_accept (hdone.accept hfd hlimit) hstatus hmatched
        (mem_append_right _ (List.mem_singleton.mpr rfl)) hc⟩
  · -- bytes of a client
    next conn buf data =>
      obtain ⟨fd, c, hconn, hreq, hfd, -, -⟩ := hmatched
      obtain rfl := Option.some.inj hconn
      have hlt : conn < s.conns := by
        rw [← List.mem_range, ← h.all.mem_iff]
        exact mem_append_left _ (List.mem_map_of_mem (f := Prod.snd) hfd)
      obtain ⟨heap, hstore, hreq', hbuf, hfill⟩ := hdone.fill hreq hlt data
      rw [Option.ite_none_right_eq_some] at hkernel
      have hkernel := hkernel.2
      rw [hstore] at hkernel
      cases hkernel
      refine ⟨hstatus, serve_read hfill hstatus hreq' hbuf hfd fun hne => ?_⟩
      dsimp only
      rw [if_neg hne]
      exact mem_append_right _ (List.mem_singleton.mpr rfl)
  · -- an answer has gone out
    next conn buf len n =>
      obtain ⟨fd, c, hconn, hreq, hfd, hbuf, -, data, hasked, hdata⟩ := hmatched
      obtain rfl := Option.some.inj hconn
      rw [Option.ite_none_right_eq_some] at hkernel
      have hkernel := hkernel.2
      rw [hbuf] at hkernel
      cases hkernel
      exact ⟨hstatus, serve_write hdone hstatus hreq hfd hasked hdata⟩
  · cases hkernel

/-- One completion, whichever request it is for. -/
theorem safe_step {a : Act} (h : Safe limit s) (hs : (server limit).step s a = some s') :
    Safe limit s' := by
  simp only [server, step] at hs
  split at hs
  swap
  · cases hs
  next hstatus =>
  split at hs
  · cases hs
  next q hq =>
  split at hs
  · cases hs
    exact ⟨by simp, fun hrun => by cases hrun⟩
  obtain ⟨⟨s₁, res⟩, hkernel, rfl⟩ := Option.map_eq_some_iff.mp hs
  obtain ⟨hrunning, s', hserve, hsafe⟩ := serve_kernel (h.2 hstatus) hstatus hq hkernel
  simp only [hrunning, if_true, hserve, Option.getD_some]
  exact hsafe

theorem inv_start : Inv limit start [] [] 1 :=
  Inv.addAcceptRequest
    { owns := ⟨List.nodup_nil, fun a => ⟨fun h => (by cases h), fun ⟨_, h⟩ => (by cases h)⟩⟩
      matched := fun q hq => (by cases hq)
      accepts := rfl
      conns := .nil
      fds := List.nodup_nil
      all := .nil
      asked := fun p hp => (by cases hp)
      answered := fun a ha => (by cases ha)
      limit := Nat.zero_le _ }

theorem safe_of_reachable (h : (server limit).Reachable s) : Safe limit s := by
  refine h.invariant (P := Safe limit) ?_ fun s a s' hsafe hs => safe_step hsafe hs
  rintro s rfl
  exact inv_start.safe rfl

/-- **The server and its requests.**  In whatever order the kernel completes the requests, the
server never touches a block that is not live.  While it runs, exactly one accept is in
flight; the live blocks are those of the requests in flight and the two of each empty read;
each connection has one request in flight, or is abandoned, or has been answered and closed;
and what it was answered is the page, or a front part of it, upon a GET of its own. -/
theorem server_safe (h : (server limit).Reachable s) :
    s.status ≠ .corrupted ∧ (s.status = .running →
      s.inflight.countP (·.op = .accept) = 1 ∧
      s.heap.Owns (s.inflight.flatMap Sqe.blocks ++ s.leaked) ∧
      (s.inflight.filterMap Sqe.conn ++ s.abandoned ++ s.answered.map Prod.fst).Perm
        (List.range s.conns) ∧
      ∀ a ∈ s.answered, a.2 <+: http200Content ∧ ∃ data, (a.1, data) ∈ s.asked ∧ Answers data) := by
  obtain ⟨hmemory, hinv⟩ := safe_of_reachable h
  refine ⟨hmemory, fun hstatus => ?_⟩
  have hinv := hinv hstatus
  exact ⟨hinv.accepts, hinv.owns, (hinv.conns.append_right _).trans hinv.all, hinv.answered⟩

/-- A client that asks for the page and gets a hundred bytes of it, and one that closes. -/
def serveOne : List Act :=
  [⟨0, .socket 5⟩, ⟨1, .bytes [71, 69, 84, 32, 47, 13, 10]⟩, ⟨0, .socket 6⟩, ⟨2, .bytes []⟩,
    ⟨0, .count 100⟩]

theorem server_safe_one :
    ∃ s, (server 4).Reachable s ∧ s.status = .running ∧ s.conns = 2 ∧ s.abandoned = [1] ∧
      s.inflight.countP (·.op = .accept) = 1 ∧ ∀ a ∈ s.answered, a.2 <+: http200Content := by
  have hrun : ((server 4).run start serveOne).map (fun s => (s.status, s.conns, s.abandoned)) =
      some (.running, 2, [1]) := by decide +kernel
  obtain ⟨s, hs, hview⟩ := Option.map_eq_some_iff.mp hrun
  have hreach : (server 4).Reachable s := System.reachable_of_run (.init rfl) hs
  simp only [Prod.mk.injEq] at hview
  obtain ⟨hstatus, hconns, habandoned⟩ := hview
  obtain ⟨haccepts, -, -, hanswered⟩ := (server_safe hreach).2 hstatus
  exact ⟨s, hreach, hstatus, hconns, habandoned, haccepts, fun a ha => (hanswered a ha).1⟩

/-! ## Connections that are never closed -/

theorem free_eq (h : s.free a = some s') : ∃ heap, s' = { s with heap := heap } := by
  obtain ⟨heap, -, rfl⟩ := Option.map_eq_some_iff.mp h
  exact ⟨heap, rfl⟩

/-- The server takes no connection back that it has abandoned, and accepts none by itself. -/
theorem serve_abandoned {res : Nat} (h : serve s req res = some s') :
    s.abandoned <+: s'.abandoned ∧ s'.conns = s.conns := by
  have hsame : s.abandoned <+: s.abandoned := List.prefix_rfl
  unfold serve at h
  split at h
  · obtain ⟨heap, rfl⟩ := free_eq h
    exact ⟨hsame, rfl⟩
  · split at h
    · cases h
      exact ⟨List.prefix_append .., rfl⟩
    · unfold serveRequest at h
      split at h
      · split at h
        · cases h
        · cases h
          exact ⟨hsame, rfl⟩
        · cases h
          exact ⟨hsame, rfl⟩
        · obtain ⟨s₁, h₁, h₂⟩ := Option.bind_eq_some_iff.mp h
          obtain ⟨heap₁, rfl⟩ := free_eq h₁
          obtain ⟨heap₂, rfl⟩ := free_eq h₂
          exact ⟨hsame, rfl⟩
        · obtain ⟨s₁, h₁, h₂⟩ := Option.bind_eq_some_iff.mp h
          obtain ⟨heap₁, rfl⟩ := free_eq h₁
          obtain ⟨heap₂, rfl⟩ := free_eq h₂
          exact ⟨List.prefix_append .., rfl⟩
      · cases h
  · obtain ⟨s₁, h₁, h₂⟩ := Option.bind_eq_some_iff.mp h
    obtain ⟨heap₁, rfl⟩ := free_eq h₁
    obtain ⟨heap₂, rfl⟩ := free_eq h₂
    exact ⟨hsame, rfl⟩
  · cases h

/-- The kernel accepts a connection only below the limit. -/
theorem kernel_abandoned {op : Op} {r : Res} {res : Nat}
    (h : kernel limit s op r = some (s', res)) :
    s'.abandoned = s.abandoned ∧ (s'.conns = s.conns ∨ s.opened.length < limit) := by
  unfold kernel at h
  split at h
  · rw [Option.ite_none_right_eq_some] at h
    obtain ⟨⟨-, hlimit⟩, h⟩ := h
    cases h
    exact ⟨rfl, .inr hlimit⟩
  · rw [Option.ite_none_right_eq_some] at h
    replace h := h.2
    split at h <;> cases h <;> exact ⟨rfl, .inl rfl⟩
  · rw [Option.ite_none_right_eq_some] at h
    replace h := h.2
    split at h <;> cases h <;> exact ⟨rfl, .inl rfl⟩
  · cases h

/-- A connection that is left open stays so, and with the limit of them nothing more is
accepted. -/
theorem abandoned_step {a : Act} (h : Safe limit s) (hs : (server limit).step s a = some s') :
    s.abandoned <+: s'.abandoned ∧ (limit ≤ s.abandoned.length → s'.conns = s.conns) := by
  simp only [server, step] at hs
  split at hs
  swap
  · cases hs
  next hstatus =>
  split at hs
  · cases hs
  next q hq =>
  split at hs
  · cases hs
    exact ⟨List.prefix_rfl, fun _ => rfl⟩
  obtain ⟨⟨s₁, res⟩, hkernel, rfl⟩ := Option.map_eq_some_iff.mp hs
  have hinv := h.2 hstatus
  obtain ⟨hrunning, s', hserve, -⟩ := serve_kernel hinv hstatus hq hkernel
  obtain ⟨habandoned, hconns⟩ := kernel_abandoned hkernel
  obtain ⟨hfront, hsame⟩ := serve_abandoned hserve
  simp only [hrunning, if_true, hserve, Option.getD_some]
  refine ⟨habandoned ▸ hfront, fun hfull => hsame.trans (hconns.resolve_right ?_)⟩
  have hlength := hinv.conns.length_eq
  simp only [List.length_append, List.length_map, List.length_nil] at hlength
  change ¬s.opened.length < limit
  omega

/-- **Abandoned for ever.**  A connection that the server has abandoned, because its client
closed first or asked for something else than GET, is open for as long as the server runs;
and when there are as many as sockets can be open, the server never accepts again. -/
theorem abandoned_for_ever (h : (server limit).Reachable s) {as : List Act}
    (hrun : (server limit).run s as = some s') :
    s.abandoned <+: s'.abandoned ∧ (s'.status = .running → s.abandoned ⊆ s'.opened.map Prod.snd) ∧
      (limit ≤ s.abandoned.length → s'.conns = s.conns) := by
  obtain ⟨hsafe, hfront, hfull⟩ :=
    System.invariant_of_run
      (I := fun t => Safe limit t ∧ s.abandoned <+: t.abandoned ∧
        (limit ≤ s.abandoned.length → t.conns = s.conns))
      (fun t a t' ⟨hsafe, hfront, hfull⟩ hs => by
        obtain ⟨hfront', hfull'⟩ := abandoned_step hsafe hs
        refine ⟨safe_step hsafe hs, hfront.trans hfront', fun hlimit => ?_⟩
        exact (hfull' (hlimit.trans hfront.length_le)).trans (hfull hlimit))
      ⟨safe_of_reachable h, List.prefix_rfl, fun _ => rfl⟩ hrun
  refine ⟨hfront, fun hstatus c hc => ?_, hfull⟩
  rw [← (hsafe.2 hstatus).conns.mem_iff]
  exact mem_append_right _ (hfront.subset hc)

/-- One client that closes, where one socket can be open. -/
theorem abandoned_for_ever_one :
    ∃ s, (server 1).Reachable s ∧ s.status = .running ∧ s.abandoned = [0] ∧
      ∀ as s', (server 1).run s as = some s' → s'.conns = 1 := by
  have hrun : ((server 1).run start [⟨0, .socket 5⟩, ⟨1, .bytes []⟩]).map
      (fun s => (s.status, s.abandoned, s.conns)) = some (.running, [0], 1) := by decide +kernel
  obtain ⟨s, hs, hview⟩ := Option.map_eq_some_iff.mp hrun
  have hreach : (server 1).Reachable s := System.reachable_of_run (.init rfl) hs
  simp only [Prod.mk.injEq] at hview
  obtain ⟨hstatus, habandoned, hconns⟩ := hview
  refine ⟨s, hreach, hstatus, habandoned, fun as s' hrun => ?_⟩
  rw [← hconns]
  exact (abandoned_for_ever hreach hrun).2.2 (by rw [habandoned]; exact Nat.le_refl 1)

end Linuxyz.IoUring
