import Mathlib.Data.List.Perm.Basic
import Mathlib.Data.List.Nodup
import Linuxyz.Lib.System

/-!
# Linuxyz.SockPoll.Server

The server of `dev-sock-poll-tcp`: `wait_client` polls its listening socket and
`MAX_CLIENTS` slots, puts a new client into the first slot without a descriptor
and echoes what a slot's descriptor has to read.

A slot that is given up loses its descriptor *and* its `events`, and a new
client gets only a descriptor, so `poll` never reports a client in a slot that
was used before.  A free slot has descriptor 0 and is polled like the others: a
client that takes it while standard input is readable is read from at once, and
`EAGAIN` drops it.  The echo of more than 1010 bytes leaves `wbuf`.  And nothing is
done about `SIGPIPE`: an echo to a client that has closed its end can end the server.
-/

namespace Linuxyz.SockPoll

def maxClients : Nat := 10

/-- The size of `rbuf` and `wbuf`. -/
def size : Nat := 1024

def pollIn : UInt16 := 1

def pollPri : UInt16 := 2

/-- A slot.  `poll` writes every `revents` before it is read, so they are part
of a `Round`. -/
structure Pollfd where
  fd : Int
  events : UInt16
deriving DecidableEq, Repr

/-- `poll` is asked for input. -/
def Pollfd.Requests (p : Pollfd) : Prop := p.events &&& pollIn ≠ 0

instance decidableRequests (p : Pollfd) : Decidable p.Requests :=
  inferInstanceAs (Decidable (p.events &&& pollIn ≠ 0))

/-- The result of `write` on a client's socket: the number of bytes that went out, -1 with
an error that the code does not look at, and `EPIPE`, which comes with a `SIGPIPE`. -/
inductive Write where
  | sent (count : Nat)
  | failed
  | pipe
deriving DecidableEq, Repr

/-- The result of `read` on a client's socket: the bytes, with what then comes of the
`write` of their echo; 0 at the end of the input, -1 with `EAGAIN` when there is nothing to
read, and -1 with another error. -/
inductive Read where
  | data (bytes : List UInt8) (write : Write)
  | eof
  | error
  | again
deriving DecidableEq, Repr

/-- The result of `accept` and `make_socket_non_blocking`. -/
inductive Accept where
  | client (fd : Int)
  | blocking (fd : Int)
  | failed
deriving DecidableEq, Repr

/-- The descriptor that `accept` opened. -/
def Accept.fd? : Accept → Option Int
  | .client fd | .blocking fd => some fd
  | .failed => none

/-- One return of `poll`: what comes of a connection when there is one, and of a
`read` of each slot that is reported readable. -/
structure Round where
  accept : Option Accept
  ready : Nat → Option Read

/-- `pollfds[1..]` and `useClient`.  `opened` has the descriptors that `accept`
returned, `live` the clients that got a slot and have not ended, `sent` what was
written. -/
structure Server where
  pollfds : List Pollfd
  useClient : Int
  opened : List Int
  live : List Int
  sent : List (Int × List UInt8)

def Server.start : Server :=
  ⟨List.replicate maxClients ⟨0, pollIn ||| pollPri⟩, 0, [], [], []⟩

/-! ## A new client -/

/-- The first slot without a descriptor gets the client's; `none` when there is
no such slot. -/
def place (fd : Int) : List Pollfd → Option (List Pollfd)
  | [] => none
  | p :: ps => if p.fd = 0 then some ({ p with fd := fd } :: ps) else (place fd ps).map (p :: ·)

/-- The part of a round for `pollfds[0]`. -/
def Server.accept (s : Server) : Option Accept → Server
  | none | some .failed => s
  | some (.blocking fd) => { s with opened := fd :: s.opened }
  | some (.client fd) =>
      match place fd s.pollfds with
      | some ps =>
          { s with
            pollfds := ps, useClient := s.useClient + 1, opened := fd :: s.opened,
            live := fd :: s.live }
      | none => { s with opened := fd :: s.opened }

/-- Whether the round ends with the `continue` after `accept`. -/
def Round.skips (r : Round) : Bool :=
  match r.accept with
  | some .failed | some (.blocking _) => true
  | none | some (.client _) => false

/-! ## The slots -/

/-- `SERVER ECHO: ` -/
def banner : List UInt8 := [83, 69, 82, 86, 69, 82, 32, 69, 67, 72, 79, 58, 32]

/-- The string in `rbuf`. -/
def text (bytes : List UInt8) : List UInt8 := bytes.takeWhile (· ≠ 0)

/-- `wbuf` after both `strcat`; `none` when they leave it. -/
def echo (bytes : List UInt8) : Option (List UInt8) :=
  if banner.length + (text bytes).length < size then
    some (banner ++ text bytes ++ List.replicate (size - (banner.length + (text bytes).length)) 0)
  else none

/-- What a turn of the loop over the slots leaves: the slot, the client whose
slot was given up, the client that has ended, and what was written. -/
structure Turn where
  slot : Pollfd
  dropped : List Int
  ended : List Int
  sent : List (Int × List UInt8)

/-- The `write` of the echo: what goes out to the client; `none` when the `SIGPIPE` ends the
server. -/
def writeEcho (fd : Int) (wbuf : List UInt8) : Write → Option (List (Int × List UInt8))
  | .sent count => some [(fd, wbuf.take count)]
  | .failed => some []
  | .pipe => none

def turn (p : Pollfd) : Option Read → Option Turn
  | none => some ⟨p, [], [], []⟩
  | some r =>
      if 0 < p.fd then
        match r with
        | .data bytes write =>
            (echo bytes).bind fun wbuf =>
              (writeEcho p.fd wbuf write).map fun sent => ⟨p, [], [], sent⟩
        | .eof | .error => some ⟨⟨0, 0⟩, [p.fd], [p.fd], []⟩
        -- for the code this is an error, although the client is still there
        | .again => some ⟨⟨0, 0⟩, [p.fd], [], []⟩
      else some ⟨p, [], [], []⟩

def turns : List (Pollfd × Option Read) → Option (List Turn)
  | [] => some []
  | (p, r) :: rest => (turn p r).bind fun t => (turns rest).map (t :: ·)

/-- The slots with what is read from each. -/
def polled (ps : List Pollfd) (ready : Nat → Option Read) : List (Pollfd × Option Read) :=
  ps.zipIdx.map fun (p, i) => (p, ready i)

def Server.serve (s : Server) (ready : Nat → Option Read) : Option Server :=
  (turns (polled s.pollfds ready)).map fun ts =>
    { s with
      pollfds := ts.map Turn.slot
      useClient := s.useClient - (ts.flatMap Turn.dropped).length
      live := s.live.filter (· ∉ ts.flatMap Turn.ended)
      sent := s.sent ++ ts.flatMap Turn.sent }

/-- `wait_client`; a run ends with a `strcat` that leaves `wbuf` and with a `SIGPIPE`. -/
def server : System Server Round where
  init s := s = .start
  step s r := if r.skips then some (s.accept r.accept) else (s.accept r.accept).serve r.ready

/-- `write` takes at most what it was given. -/
def Write.Sized : Write → Prop
  | .sent count => count ≤ size
  | .failed | .pipe => True

instance decidableWriteSized : (w : Write) → Decidable w.Sized
  | .sent count => inferInstanceAs (Decidable (count ≤ size))
  | .failed | .pipe => .isTrue trivial

/-- `read` returns between one byte and a full buffer. -/
def Read.Sized : Read → Prop
  | .data bytes write => bytes ≠ [] ∧ bytes.length ≤ size ∧ write.Sized
  | .eof | .error | .again => True

instance decidableSized : (r : Read) → Decidable r.Sized
  | .data bytes write =>
      inferInstanceAs (Decidable (bytes ≠ [] ∧ bytes.length ≤ size ∧ write.Sized))
  | .eof | .error | .again => .isTrue trivial

/-- What the kernel delivers: `accept` returns descriptors that are not open, and
`poll` reports only what a slot requests. -/
structure Delivers (s : Server) (r : Round) : Prop where
  fresh : ∀ fd ∈ r.accept.bind Accept.fd?, 0 < fd ∧ fd ∉ s.opened
  reads : ∀ pr ∈ polled s.pollfds r.ready, ∀ read ∈ pr.2, pr.1.Requests ∧ read.Sized

instance decidableDelivers (s : Server) (r : Round) : Decidable (Delivers s r) :=
  decidable_of_iff ((∀ fd ∈ r.accept.bind Accept.fd?, 0 < fd ∧ fd ∉ s.opened) ∧
    ∀ pr ∈ polled s.pollfds r.ready, ∀ read ∈ pr.2, pr.1.Requests ∧ read.Sized)
    ⟨fun h => ⟨h.1, h.2⟩, fun h => ⟨h.fresh, h.reads⟩⟩

/-- What the loop handles rightly: there is something to read, its echo fits and brings no
`SIGPIPE`, or the client has ended. -/
def Read.Served : Read → Prop
  | .data bytes write => banner.length + (text bytes).length < size ∧ write ≠ .pipe
  | .eof | .error => True
  | .again => False

instance decidableServed : (r : Read) → Decidable r.Served
  | .data bytes write =>
      inferInstanceAs (Decidable (banner.length + (text bytes).length < size ∧ write ≠ .pipe))
  | .eof | .error => .isTrue trivial
  | .again => .isFalse id

/-- The slot that a new client gets. -/
def firstFree (ps : List Pollfd) : Option Pollfd := ps.find? (·.fd = 0)

/-- A new client finds a first free slot that still requests input, and every
read that is made is one that the loop handles rightly. -/
structure Serves (s : Server) (r : Round) : Prop where
  slot : r.accept ≠ none → r.skips = false → ∀ p ∈ firstFree s.pollfds, p.Requests
  reads : r.skips = false → ∀ pr ∈ polled (s.accept r.accept).pollfds r.ready, 0 < pr.1.fd →
    ∀ read ∈ pr.2, read.Served

instance decidableServes (s : Server) (r : Round) : Decidable (Serves s r) :=
  decidable_of_iff ((r.accept ≠ none → r.skips = false → ∀ p ∈ firstFree s.pollfds, p.Requests) ∧
    (r.skips = false → ∀ pr ∈ polled (s.accept r.accept).pollfds r.ready, 0 < pr.1.fd →
      ∀ read ∈ pr.2, read.Served))
    ⟨fun h => ⟨h.1, h.2⟩, fun h => ⟨h.slot, h.reads⟩⟩

/-! ## Seats -/

/-- The descriptors in the slots. -/
def occupied (ps : List Pollfd) : List Int := (ps.map Pollfd.fd).filter (· ≠ 0)

@[simp] theorem occupied_cons_zero {p : Pollfd} (h : p.fd = 0) (ps : List Pollfd) :
    occupied (p :: ps) = occupied ps := by
  simp [occupied, h]

@[simp] theorem occupied_cons {p : Pollfd} (h : p.fd ≠ 0) (ps : List Pollfd) :
    occupied (p :: ps) = p.fd :: occupied ps := by
  simp [occupied, h]

/-- Placing a client adds its descriptor to the occupied ones. -/
theorem perm_place {fd : Int} (hfd : fd ≠ 0) {ps qs : List Pollfd} (h : place fd ps = some qs) :
    (occupied qs).Perm (fd :: occupied ps) := by
  induction ps generalizing qs with
  | nil => cases h
  | cons p ps ih =>
      by_cases hp : p.fd = 0
      · rw [place, if_pos hp] at h
        cases h
        rw [occupied_cons_zero hp, occupied_cons (p := { p with fd := fd }) hfd]
      · rw [place, if_neg hp, Option.map_eq_some_iff] at h
        obtain ⟨rest, hrest, rfl⟩ := h
        rw [occupied_cons hp, occupied_cons hp]
        exact ((ih hrest).cons p.fd).trans (.swap _ _ _)

/-- A slot after placing is as before, or is the first free one. -/
theorem mem_place {fd : Int} {ps qs : List Pollfd} (h : place fd ps = some qs) {q : Pollfd}
    (hq : q ∈ qs) : q ∈ ps ∨ ∃ p, firstFree ps = some p ∧ q = { p with fd := fd } := by
  induction ps generalizing qs with
  | nil => cases h
  | cons p ps ih =>
      by_cases hp : p.fd = 0
      · rw [place, if_pos hp] at h
        cases h
        grind [firstFree]
      · rw [place, if_neg hp, Option.map_eq_some_iff] at h
        obtain ⟨rest, hrest, rfl⟩ := h
        grind [firstFree]

/-- Without a `SIGPIPE` the server goes on after the `write`. -/
theorem writeEcho_of_ne_pipe {write : Write} (h : write ≠ .pipe) (fd : Int) (wbuf : List UInt8) :
    ∃ sent, writeEcho fd wbuf write = some sent := by
  cases write with
  | sent count => exact ⟨_, rfl⟩
  | failed => exact ⟨_, rfl⟩
  | pipe => exact absurd rfl h

/-- A turn that is served rightly. -/
theorem turn_served {p : Pollfd} {r : Option Read} (h : 0 < p.fd → ∀ read ∈ r, read.Served) :
    ∃ t, turn p r = some t ∧ t.ended = t.dropped ∧
      (t.slot = p ∧ t.dropped = [] ∨ t.slot.fd = 0 ∧ p.fd ≠ 0 ∧ t.dropped = [p.fd]) := by
  cases r with
  | none => exact ⟨_, rfl, rfl, .inl ⟨rfl, rfl⟩⟩
  | some read =>
      by_cases hpos : 0 < p.fd
      · have hserved := h hpos read rfl
        cases read with
        | data bytes write =>
            have hecho : echo bytes = some _ := if_pos hserved.1
            obtain ⟨sent, hsent⟩ := writeEcho_of_ne_pipe hserved.2 p.fd _
            refine ⟨⟨p, [], [], sent⟩, ?_, rfl, .inl ⟨rfl, rfl⟩⟩
            rw [turn, if_pos hpos, hecho, Option.bind_some, hsent, Option.map_some]
        | eof | error => exact ⟨_, if_pos hpos, rfl, .inr ⟨rfl, Int.ne_of_gt hpos, rfl⟩⟩
        | again => exact hserved.elim
      · exact ⟨_, if_neg hpos, rfl, .inl ⟨rfl, rfl⟩⟩

/-- The whole loop, when every read is served rightly: it splits the occupied
descriptors into those that stay and those that have ended. -/
theorem turns_served {prs : List (Pollfd × Option Read)}
    (h : ∀ pr ∈ prs, 0 < pr.1.fd → ∀ read ∈ pr.2, read.Served) :
    ∃ ts, turns prs = some ts ∧ ts.flatMap Turn.ended = ts.flatMap Turn.dropped ∧
      (occupied (prs.map Prod.fst)).Perm (ts.flatMap Turn.dropped ++ occupied (ts.map Turn.slot)) ∧
      ∀ p ∈ ts.map Turn.slot, p.fd = 0 ∨ p ∈ prs.map Prod.fst := by
  induction prs with
  | nil => exact ⟨[], rfl, rfl, .refl _, nofun⟩
  | cons pr prs ih =>
      obtain ⟨ts, hts, hended, hperm, hslot⟩ :=
        ih fun q hq => h q (List.mem_cons_of_mem _ hq)
      obtain ⟨t, ht, htended, hturn⟩ := turn_served (h pr (by simp))
      refine ⟨t :: ts, by rw [turns, ht, Option.bind_some, hts]; rfl, ?_, ?_, ?_⟩
      · rw [List.flatMap_cons, List.flatMap_cons, hended, htended]
      · rw [List.flatMap_cons, List.map_cons, List.map_cons]
        rcases hturn with ⟨hsame, hnone⟩ | ⟨hzero, hne, hone⟩
        · rw [hsame, hnone, List.nil_append]
          by_cases hp : pr.1.fd = 0
          · rwa [occupied_cons_zero hp, occupied_cons_zero hp]
          · rw [occupied_cons hp, occupied_cons hp]
            exact (hperm.cons _).trans List.perm_middle.symm
        · rw [hone, occupied_cons_zero hzero, occupied_cons hne]
          exact hperm.cons _
      · rw [List.map_cons, List.map_cons, List.forall_mem_cons]
        exact ⟨by grind, fun p hp => (hslot p hp).imp_right (List.mem_cons_of_mem _)⟩

/-! ## Whole runs -/

/-- The live clients are those in the slots, each in one; their slots request
input, and `useClient` counts them. -/
structure Seated (s : Server) : Prop where
  nonneg : ∀ p ∈ s.pollfds, 0 ≤ p.fd
  opened : ∀ c ∈ occupied s.pollfds, c ∈ s.opened
  nodup : (occupied s.pollfds).Nodup
  live : ∀ c, c ∈ s.live ↔ c ∈ occupied s.pollfds
  requests : ∀ p ∈ s.pollfds, p.fd ≠ 0 → p.Requests
  useClient : s.useClient = (occupied s.pollfds).length

/-- A client that is accepted gets the first free slot, if there is one. -/
theorem Seated.accept {s : Server} {r : Round} (h : Seated s) (hdel : Delivers s r)
    (hslot : r.accept ≠ none → r.skips = false → ∀ p ∈ firstFree s.pollfds, p.Requests) :
    Seated (s.accept r.accept) := by
  have hmore : ∀ fd, Seated { s with opened := fd :: s.opened } := fun fd =>
    { h with opened := fun c hc => List.mem_cons_of_mem _ (h.opened c hc) }
  match hacc : r.accept with
  | none => exact h
  | some .failed => exact h
  | some (.blocking fd) => exact hmore fd
  | some (.client fd) =>
      obtain ⟨hpos, hfresh⟩ := hdel.fresh fd (by rw [hacc]; rfl)
      simp only [Server.accept]
      cases hplace : place fd s.pollfds with
      | none => exact hmore fd
      | some ps =>
          have hperm := perm_place (by omega) hplace
          have hmem : ∀ c, c ∈ occupied ps ↔ c = fd ∨ c ∈ occupied s.pollfds := fun c => by
            rw [hperm.mem_iff, List.mem_cons]
          refine {
            nonneg := ?nonneg, opened := ?opened, nodup := ?nodup, live := ?live,
            requests := ?requests, useClient := ?useClient }
          case nonneg =>
            intro q hq
            rcases mem_place hplace hq with hold | ⟨p, -, rfl⟩
            · exact h.nonneg q hold
            · exact Int.le_of_lt hpos
          case opened => grind [h.opened]
          case nodup =>
            exact hperm.nodup_iff.mpr (List.nodup_cons.mpr ⟨fun hc => hfresh (h.opened fd hc),
              h.nodup⟩)
          case live => grind [h.live]
          case requests =>
            intro q hq hne
            rcases mem_place hplace hq with hold | ⟨p, hp, rfl⟩
            · exact h.requests q hold hne
            · exact hslot (by simp [hacc]) (by simp [Round.skips, hacc]) p hp
          case useClient =>
            simp only [hperm.length_eq, List.length_cons, h.useClient]
            omega

theorem map_fst_polled (ps : List Pollfd) (ready : Nat → Option Read) :
    (polled ps ready).map Prod.fst = ps := by
  simp [polled, Function.comp_def]

/-- Reads that the server can echo leave each live client in its slot. -/
theorem Seated.serve {s : Server} {ready : Nat → Option Read} (h : Seated s)
    (hreads : ∀ pr ∈ polled s.pollfds ready, 0 < pr.1.fd → ∀ read ∈ pr.2, read.Served) :
    ∃ s', s.serve ready = some s' ∧ Seated s' := by
  have hfst := map_fst_polled s.pollfds ready
  obtain ⟨ts, hts, hended, hperm, hslot⟩ := turns_served hreads
  rw [hfst] at hperm hslot
  have hnodup := hperm.nodup_iff.mp h.nodup
  refine ⟨_, by rw [Server.serve, hts]; rfl, ?_⟩
  have hmem : ∀ c, c ∈ occupied s.pollfds ↔
      c ∈ ts.flatMap Turn.dropped ∨ c ∈ occupied (ts.map Turn.slot) :=
    fun c => by rw [hperm.mem_iff, List.mem_append]
  refine {
    nonneg := ?nonneg, opened := ?opened, nodup := ?nodup, live := ?live, requests := ?requests,
    useClient := ?useClient }
  case nonneg =>
    intro p hp
    rcases hslot p hp with hzero | hold
    · exact Int.le_of_eq hzero.symm
    · exact h.nonneg p hold
  case opened => exact fun c hc => h.opened c ((hmem c).mpr (.inr hc))
  case nodup => exact (List.nodup_append.mp hnodup).2.1
  case live =>
    intro c
    have hdisjoint := (List.nodup_append.mp hnodup).2.2
    simp only [List.mem_filter, decide_eq_true_eq, hended, h.live, hmem]
    grind
  case requests => exact fun p hp hne => h.requests p ((hslot p hp).resolve_left hne) hne
  case useClient =>
    have hlen := hperm.length_eq
    simp only [h.useClient]
    rw [List.length_append] at hlen
    omega

theorem Seated.step {s : Server} {r : Round} (h : Seated s) (hr : Delivers s r ∧ Serves s r) :
    ∃ s', server.step s r = some s' ∧ Seated s' := by
  have haccept := h.accept hr.1 hr.2.slot
  cases hskips : r.skips with
  | true => exact ⟨_, by simp only [server, hskips, if_true], haccept⟩
  | false =>
      obtain ⟨s', hs', hseated⟩ := haccept.serve (hr.2.reads hskips)
      exact ⟨s', by simp only [server, hskips, Bool.false_eq_true, if_false, hs'], hseated⟩

end Linuxyz.SockPoll
