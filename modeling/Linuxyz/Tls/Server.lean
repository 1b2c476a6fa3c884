import Linuxyz.Tls.Table

/-!
# Linuxyz.Tls.Server

The epoll server of `dev-sock-tls-thread/server` around its connection table:
`handle_conn` accepts a connection, makes its `SSL_CTX` and `SSL` and registers
them, `handle_client` looks the `SSL` up, reads, and on end of file or error
releases the registered objects and closes the descriptor.

The objects of the `n`th accepted connection have the identity `n`.  The kernel
hands out any descriptor number that is not open, those of closed connections
included, while the entry of a closed connection stays in the table: the lookup
may then find the freed `SSL` of the descriptor's earlier owner, and a release
may free it again.
-/

namespace Linuxyz.Tls

/-- The server: its table, the descriptors epoll watches, the descriptors left
open after a failed handshake, how many connections were accepted, and the
objects passed to `SSL_free` and `SSL_CTX_free`, oldest first. -/
structure Server where
  table : Table
  watched : List Int
  shut : List Int
  accepted : Nat
  sslFreed : List Nat
  ctxFreed : List Nat

def Server.start : Server := ⟨.start, [], [], 0, [], []⟩

inductive Event where
  /-- `accept` returns `infd`, and `SSL_accept` succeeds or not -/
  | conn (infd : Int) (handshake : Bool)
  /-- epoll reports `cfd`, and `SSL_read` returns `valread` -/
  | client (cfd : Int) (valread : Int)
deriving DecidableEq, Repr

/-- One round of the loop of `handle_conn`.  The result of `set_tlsch` is not
looked at; a failed handshake frees the objects but leaves the descriptor
open. -/
def handleConn (s : Server) (infd : Int) (handshake : Bool) : Option Server :=
  if infd < 0 ∨ infd ∈ s.watched ∨ infd ∈ s.shut then none
  else if handshake then
    (setTlsch s.table infd (some s.accepted) (some s.accepted)).map fun r =>
      { s with table := r.2, watched := infd :: s.watched, accepted := s.accepted + 1 }
  else
    some { s with
      shut := infd :: s.shut, accepted := s.accepted + 1,
      sslFreed := s.sslFreed ++ [s.accepted], ctxFreed := s.ctxFreed ++ [s.accepted] }

/-- `handle_client` is done with a connection. -/
def Done (valread : Int) : Prop := valread = -1 ∨ valread = 0

instance decidableDone (valread : Int) : Decidable (Done valread) :=
  inferInstanceAs (Decidable (_ ∨ _))

/-- `handle_client`; freeing `NULL` does nothing. -/
def handleClient (s : Server) (cfd valread : Int) : Option Server :=
  if cfd ∉ s.watched then none
  else if Done valread then
    some { s with
      table := (releaseTlsch s.table cfd).2, watched := s.watched.filter (· != cfd),
      sslFreed := s.sslFreed ++ (s.table.hits cfd).filterMap (·.ssl),
      ctxFreed := s.ctxFreed ++ (s.table.hits cfd).filterMap (·.ctx) }
  else some s

def server : System Server Event where
  init s := s = .start
  step s
    | .conn infd handshake => handleConn s infd handshake
    | .client cfd valread => handleClient s cfd valread

/-- A connection ends while the only entry with its descriptor that
`release_tlsch` looks at, if there is one, is the entry stored last. -/
def EndsLast (s : Server) : Event → Prop
  | .conn _ _ => True
  | .client cfd valread =>
      Done valread → ∀ i < maxConn, (i : Int) ≤ s.table.tlschHead →
        s.table.clientCtx[i]?.map (·.sock) = some cfd → (i : Int) + 1 = s.table.tlschHead

instance decidableEndsLast (s : Server) : (e : Event) → Decidable (EndsLast s e)
  | .conn _ _ => .isTrue trivial
  | .client cfd valread =>
      inferInstanceAs (Decidable (Done valread → ∀ i < maxConn, (i : Int) ≤ s.table.tlschHead →
        s.table.clientCtx[i]?.map (·.sock) = some cfd → (i : Int) + 1 = s.table.tlschHead))

/-! ## the invariant -/

/-- The stored entries belong to watched connections, one for each socket, and
their objects were not freed; an entry with the descriptor of a watched
connection that is not stored, one the table had no room for, holds no object.
-/
structure Sound (s : Server) : Prop where
  head_nonneg : 0 ≤ s.table.tlschHead
  watched : ∀ ch ∈ s.table.stored, ch.sock ∈ s.watched
  socks : (s.table.stored.map (·.sock)).Nodup
  objects : (s.table.stored.map (·.ssl)).Nodup
  alive : ∀ ch ∈ s.table.stored, ∃ n < s.accepted, ch.ssl = some n ∧ n ∉ s.sslFreed
  known : ∀ fd ∈ s.watched,
    (∃ ch ∈ s.table.stored, ch.sock = fd) ∨ ∀ ch ∈ s.table.clientCtx, ch.sock = fd → ch.ssl = none
  unused : ∀ ch ∈ s.table.clientCtx.drop (maxConn - 1), ch.ssl = none
  paired : ∀ ch ∈ s.table.clientCtx, ch.ctx = ch.ssl
  freed_lt : ∀ n ∈ s.sslFreed, n < s.accepted
  freed_once : s.sslFreed.Nodup
  ctxFreed_eq : s.ctxFreed = s.sslFreed

theorem sound_start : Sound .start where
  head_nonneg := by decide
  watched ch hch := by cases hch
  socks := List.nodup_nil
  objects := List.nodup_nil
  alive ch hch := by cases hch
  known fd hfd := by cases hfd
  unused ch hch := by rw [List.eq_of_mem_replicate (List.mem_of_mem_drop hch)]
  paired ch hch := by rw [List.eq_of_mem_replicate hch]
  freed_lt n hn := by cases hn
  freed_once := List.nodup_nil
  ctxFreed_eq := rfl

variable {s : Server}

/-- The lookup for a watched connection does not find a freed object. -/
theorem Sound.getTlschSsl (h : Sound s) (hfd : fd ∈ s.watched)
    (hget : getTlschSsl s.table fd = some n) : n ∉ s.sslFreed := by
  rw [Tls.getTlschSsl, Option.bind_eq_some_iff] at hget
  obtain ⟨ch, hfind, hssl⟩ := hget
  rcases h.known fd hfd with ⟨e, he, rfl⟩ | hnone
  · rw [s.table.visited_eq h.head_nonneg, List.find?_append, find?_sock h.socks he,
      Option.some_or] at hfind
    obtain ⟨m, -, hm, halive⟩ := h.alive e he
    rw [← Option.some.inj hfind, hm] at hssl
    exact Option.some.inj hssl ▸ halive
  · have hmem : ch ∈ s.table.clientCtx := List.mem_of_mem_take (List.mem_of_find?_eq_some hfind)
    have hsock : ch.sock = fd := by simpa using List.find?_some hfind
    rw [hnone ch hmem hsock] at hssl
    cases hssl

/-! ## accepting -/

/-- A client whose handshake fails is shut down and not watched. -/
theorem Sound.handshakeFailed (h : Sound s) (infd : Int) : Sound { s with
      shut := infd :: s.shut, accepted := s.accepted + 1,
      sslFreed := s.sslFreed ++ [s.accepted], ctxFreed := s.ctxFreed ++ [s.accepted] } where
  head_nonneg := h.head_nonneg
  watched := h.watched
  socks := h.socks
  objects := h.objects
  alive ch hch := by
    obtain ⟨n, hn, hssl, hfree⟩ := h.alive ch hch
    refine ⟨n, Nat.lt_succ_of_lt hn, hssl, ?_⟩
    simp [hfree, Nat.ne_of_lt hn]
  known := h.known
  unused := h.unused
  paired := h.paired
  freed_lt := List.forall_mem_append.mpr
    ⟨fun n hn => Nat.lt_succ_of_lt (h.freed_lt n hn),
      List.forall_mem_singleton.mpr (Nat.lt_succ_self _)⟩
  freed_once := by
    refine List.nodup_append.mpr ⟨h.freed_once, List.nodup_singleton _, ?_⟩
    rintro n hn _ hm rfl
    exact Nat.lt_irrefl _ (List.mem_singleton.mp hm ▸ h.freed_lt n hn)
  ctxFreed_eq := by rw [h.ctxFreed_eq]

/-- A full table: the connection is watched, and its objects are in no entry. -/
theorem Sound.notRegistered (h : Sound s) (hinfd : infd ∉ s.watched)
    (hfull : s.table.tlschHead + 1 = maxConn) :
    Sound { s with watched := infd :: s.watched, accepted := s.accepted + 1 } where
  head_nonneg := h.head_nonneg
  watched ch hch := List.mem_cons_of_mem _ (h.watched ch hch)
  socks := h.socks
  objects := h.objects
  alive ch hch := by
    obtain ⟨n, hn, hrest⟩ := h.alive ch hch
    exact ⟨n, Nat.lt_succ_of_lt hn, hrest⟩
  known fd hfd := by
    rcases List.mem_cons.mp hfd with rfl | hfd
    · right
      intro ch hch hsock
      have hn : s.table.tlschHead.toNat = maxConn - 1 := by omega
      rw [← List.take_append_drop (maxConn - 1) s.table.clientCtx, ← hn] at hch
      rcases List.mem_append.mp hch with hch | hch
      · exact absurd (hsock ▸ h.watched ch hch) hinfd
      · exact h.unused ch (hn ▸ hch)
    · exact h.known fd hfd
  unused := h.unused
  paired := h.paired
  freed_lt n hn := Nat.lt_succ_of_lt (h.freed_lt n hn)
  freed_once := h.freed_once
  ctxFreed_eq := h.ctxFreed_eq

/-- A client whose handshake succeeds is stored and watched. -/
theorem Sound.registered (h : Sound s) (hinfd : infd ∉ s.watched)
    (hmax : s.table.tlschHead + 1 ≠ maxConn) : Sound { s with
      table := s.table.append ⟨infd, some s.accepted, some s.accepted⟩ hmax,
      watched := infd :: s.watched, accepted := s.accepted + 1 } := by
  have hstored := Table.stored_append h.head_nonneg ⟨infd, some s.accepted, some s.accepted⟩ hmax
  have hmem {ch : TlsChannel} (hch : ch ∈
      (s.table.append ⟨infd, some s.accepted, some s.accepted⟩ hmax).clientCtx) :
      ch ∈ s.table.clientCtx ∨ ch = ⟨infd, some s.accepted, some s.accepted⟩ :=
        List.mem_or_eq_of_mem_set hch
  have hhead : s.table.tlschHead.toNat < maxConn - 1 := by
    have := s.table.head_lt
    have : 1 < maxConn := by decide
    omega
  refine {
    head_nonneg := Int.le_add_one h.head_nonneg, watched := ?watched, socks := ?socks,
    objects := ?objects, alive := ?alive, known := ?known, unused := ?unused, paired := ?paired,
    freed_lt := fun n hn => Nat.lt_succ_of_lt (h.freed_lt n hn), freed_once := h.freed_once,
    ctxFreed_eq := h.ctxFreed_eq }
  case watched =>
    rw [hstored, List.forall_mem_append, List.forall_mem_singleton]
    exact ⟨fun ch hch => List.mem_cons_of_mem _ (h.watched ch hch), List.mem_cons_self⟩
  case socks =>
    rw [hstored]
    exact nodup_map_append_singleton h.socks fun ch hch (he : ch.sock = infd) =>
      hinfd (he ▸ h.watched ch hch)
  case objects =>
    rw [hstored]
    refine nodup_map_append_singleton h.objects fun ch hch (he : ch.ssl = some s.accepted) => ?_
    obtain ⟨n, hn, hssl, -⟩ := h.alive ch hch
    exact Nat.ne_of_lt hn (Option.some.inj (hssl.symm.trans he))
  case alive =>
    rw [hstored, List.forall_mem_append, List.forall_mem_singleton]
    constructor
    · intro ch hch
      obtain ⟨n, hn, hrest⟩ := h.alive ch hch
      exact ⟨n, Nat.lt_succ_of_lt hn, hrest⟩
    · exact ⟨_, Nat.lt_succ_self _, rfl, fun hn => Nat.lt_irrefl _ (h.freed_lt _ hn)⟩
  case known =>
    rw [hstored]
    intro fd hfd
    rcases List.mem_cons.mp hfd with rfl | hfd
    · exact .inl ⟨_, List.mem_append_right _ (List.mem_singleton_self _), rfl⟩
    · rcases h.known fd hfd with ⟨ch, hch, hsock⟩ | hnone
      · exact .inl ⟨ch, List.mem_append_left _ hch, hsock⟩
      · right
        intro ch hch hsock
        rcases hmem hch with hch | rfl
        · exact hnone ch hch hsock
        · have hsock : infd = fd := hsock
          exact absurd (hsock ▸ hfd) hinfd
  case unused =>
    intro ch hch
    simp only [Table.append, List.drop_set_of_lt hhead] at hch
    exact h.unused ch hch
  case paired =>
    intro ch hch
    rcases hmem hch with hch | rfl
    · exact h.paired ch hch
    · rfl

/-- A new connection, whatever becomes of its handshake. -/
theorem Sound.handleConn {s' : Server} (h : Sound s) (hs : handleConn s infd handshake = some s') :
    Sound s' := by
  rw [Tls.handleConn] at hs
  split at hs
  · cases hs
  next hopen =>
    have hinfd : infd ∉ s.watched := fun hmem => hopen (.inr (.inl hmem))
    split at hs
    · obtain ⟨r, hr, rfl⟩ := Option.map_eq_some_iff.mp hs
      rw [setTlsch] at hr
      split at hr
      next hfull =>
        cases hr
        exact h.notRegistered hinfd hfull
      next hmax =>
        rw [if_neg (Int.not_lt.mpr h.head_nonneg)] at hr
        cases hr
        exact h.registered hinfd hmax
    · cases hs
      exact h.handshakeFailed infd

/-! ## serving -/

/-- The release of a connection that ends last finds nothing, or the entry
stored last. -/
theorem Sound.hits_of_endsLast (h : Sound s) (hlast : EndsLast s (.client cfd valread))
    (hdone : Done valread) :
    s.table.hits cfd = [] ∨ ∃ l ch, s.table.stored = l ++ [ch] ∧ ch.sock = cfd ∧
      s.table.hits cfd = [ch] := by
  have hnonneg := h.head_nonneg
  have hlen := Table.length_stored hnonneg
  have hlt := Table.toNat_head_lt hnonneg
  have hidx (i : Nat) (hi : i ≤ s.table.tlschHead.toNat) {ch : TlsChannel}
      (hch : s.table.clientCtx[i]? = some ch)
      (hsock : ch.sock = cfd) : i + 1 = s.table.tlschHead.toNat := by
    have hmax : i < maxConn := s.table.length_clientCtx ▸ Nat.lt_of_le_of_lt hi hlt
    have := hlast hdone i hmax (by omega) (by rw [hch, Option.map_some, hsock])
    omega
  have hnext : (s.table.clientCtx.get ⟨_, hlt⟩).sock ≠ cfd := by
    intro hsock
    have := hidx _ (Nat.le_refl _) (List.getElem?_eq_getElem hlt) hsock
    omega
  have hhits : s.table.hits cfd = s.table.stored.filter (·.sock == cfd) := by
    rw [Table.hits, Table.visited_eq hnonneg, List.filter_append,
      List.filter_cons_of_neg (by simpa using hnext), List.filter_nil, List.append_nil]
  rcases List.eq_nil_or_concat s.table.stored with hnil | ⟨l, ch, hl⟩
  · left
    rw [hhits, hnil]
    rfl
  · rw [List.concat_eq_append] at hl
    have hbefore : l.filter (·.sock == cfd) = [] := by
      rw [List.filter_eq_nil_iff]
      intro a ha hsock
      obtain ⟨i, hi, rfl⟩ := List.mem_iff_getElem.mp ha
      rw [hl, List.length_append, List.length_singleton] at hlen
      have hat : s.table.stored[i]? = some l[i] := by
        rw [hl, List.getElem?_append_left hi, List.getElem?_eq_getElem hi]
      rw [Table.stored, List.getElem?_take_of_lt (by omega)] at hat
      have := hidx i (by omega) hat (by simpa using hsock)
      omega
    rw [hhits, hl, List.filter_append, hbefore, List.nil_append]
    by_cases hsock : ch.sock = cfd
    · exact .inr ⟨l, ch, rfl, hsock, List.filter_cons_of_pos (by simpa using hsock)⟩
    · exact .inl (List.filter_cons_of_neg (by simpa using hsock))

/-- A connection without an entry ends. -/
theorem Sound.endsUnknown (h : Sound s) (hhits : s.table.hits cfd = []) :
    Sound { s with watched := s.watched.filter (· != cfd) } := by
  have hne {ch : TlsChannel} (hch : ch ∈ s.table.stored) : ch.sock ≠ cfd := by
    have := List.filter_eq_nil_iff.mp hhits ch (Table.mem_visited h.head_nonneg hch)
    simpa using this
  refine ⟨h.head_nonneg, ?_, h.socks, h.objects, h.alive, ?_, h.unused, h.paired, h.freed_lt,
    h.freed_once, h.ctxFreed_eq⟩
  · exact fun ch hch => List.mem_filter.mpr ⟨h.watched ch hch, by simpa using hne hch⟩
  · exact fun fd hfd => h.known fd (List.mem_of_mem_filter hfd)

/-- The connection stored last ends. -/
theorem Sound.endsStored (h : Sound s) (hl : s.table.stored = l ++ [ch]) (hssl : ch.ssl = some n) :
    Sound { s with
      table := s.table.dropHead, watched := s.watched.filter (· != ch.sock),
      sslFreed := s.sslFreed ++ [n], ctxFreed := s.ctxFreed ++ [n] } := by
  have hstored : s.table.dropHead.stored = l := by
    rw [Table.stored_dropHead, hl, List.dropLast_concat]
  have hlen := Table.length_stored h.head_nonneg
  rw [hl, List.length_append, List.length_singleton] at hlen
  have hsub {a : TlsChannel} (ha : a ∈ l) : a ∈ s.table.stored := hl ▸ List.mem_append_left _ ha
  have hch : ch ∈ s.table.stored := hl ▸ List.mem_append_right _ (List.mem_singleton_self _)
  obtain ⟨m, hm, hssl', hfree⟩ := h.alive ch hch
  obtain rfl : n = m := Option.some.inj (hssl.symm.trans hssl')
  have hsocks := h.socks
  have hobjects := h.objects
  rw [hl, List.map_append, List.nodup_append] at hsocks hobjects
  have hsock {a : TlsChannel} (ha : a ∈ l) : a.sock ≠ ch.sock :=
    hsocks.2.2 _ (List.mem_map_of_mem ha) _ (List.mem_singleton_self _)
  refine {
    head_nonneg := ?head_nonneg, watched := ?watched, socks := hstored ▸ hsocks.1,
    objects := hstored ▸ hobjects.1, alive := ?alive, known := ?known, unused := h.unused,
    paired := h.paired,
    freed_lt := List.forall_mem_append.mpr ⟨h.freed_lt, List.forall_mem_singleton.mpr hm⟩,
    freed_once := ?freed_once, ctxFreed_eq := by rw [h.ctxFreed_eq] }
  case head_nonneg =>
    simp only [Table.dropHead]
    omega
  case watched =>
    rw [hstored]
    exact fun a ha => List.mem_filter.mpr ⟨h.watched a (hsub ha), by simpa using hsock ha⟩
  case alive =>
    rw [hstored]
    intro a ha
    obtain ⟨k, hk, hka, hkfree⟩ := h.alive a (hsub ha)
    have hne : k ≠ n := by
      rintro rfl
      exact hobjects.2.2 _ (List.mem_map_of_mem ha) _ (List.mem_singleton_self _)
        (hka.trans hssl.symm)
    exact ⟨k, hk, hka, by simp [hkfree, hne]⟩
  case known =>
    rw [hstored]
    intro fd hfd
    obtain ⟨hfd, hne⟩ := List.mem_filter.mp hfd
    refine (h.known fd hfd).imp_left ?_
    rintro ⟨a, ha, rfl⟩
    rw [hl] at ha
    rcases List.mem_append.mp ha with ha | ha
    · exact ⟨a, ha, rfl⟩
    · rw [List.mem_singleton.mp ha] at hne
      simp at hne
  case freed_once =>
    rw [← List.concat_eq_append]
    exact h.freed_once.concat hfree

/-- A read from a client; if it ends the connection, it is that of the last entry. -/
theorem Sound.handleClient {s' : Server} (h : Sound s) (hlast : EndsLast s (.client cfd valread))
    (hs : handleClient s cfd valread = some s') : Sound s' := by
  rw [Tls.handleClient] at hs
  split at hs
  · cases hs
  split at hs
  next hdone =>
    cases hs
    rcases h.hits_of_endsLast hlast hdone with hhits | ⟨l, ch, hl, rfl, hhits⟩
    · simpa [hhits, releaseTlsch] using h.endsUnknown hhits
    · have hch : ch ∈ s.table.stored := hl ▸ List.mem_append_right _ (List.mem_singleton_self _)
      obtain ⟨n, -, hssl, -⟩ := h.alive ch hch
      have hctx : ch.ctx = some n := (h.paired ch (List.mem_of_mem_take hch)).trans hssl
      simpa [hhits, releaseTlsch, hssl, hctx] using h.endsStored hl hssl
  · cases hs
    exact h

/-- **A connection that ends last is released once.**  In every run in which a
connection ends only while the entry stored last is the only one with its
descriptor, no object is freed twice and the lookup for a watched connection
never finds a freed `SSL`. -/
theorem tls_objects_freed_once_of_endsLast {es : List Event} {s : Server}
    (hes : server.Meets EndsLast .start es) (hrun : server.run .start es = some s) :
    s.sslFreed.Nodup ∧ s.ctxFreed.Nodup ∧
      ∀ cfd ∈ s.watched, ∀ n, getTlschSsl s.table cfd = some n → n ∉ s.sslFreed := by
  have hstep : ∀ s e s', Sound s → EndsLast s e → server.step s e = some s' → Sound s' := by
    intro s e s' h he hs
    cases e with
    | conn infd handshake => exact h.handleConn hs
    | client cfd valread => exact h.handleClient he hs
  have h := hes.invariant (I := Sound) hstep sound_start hrun
  exact ⟨h.freed_once, h.ctxFreed_eq ▸ h.freed_once, fun cfd hcfd n hn => h.getTlschSsl hcfd hn⟩

/-- Two connections; the second ends, its descriptor is used again, and both
end in reverse order. -/
theorem tls_objects_freed_once_of_nested :
    ∃ s, server.run .start
        [.conn 5 true, .conn 6 true, .client 6 0, .conn 6 true, .client 6 (-1), .client 5 0] =
          some s ∧
      s.sslFreed.Nodup ∧ s.ctxFreed.Nodup ∧
      ∀ cfd ∈ s.watched, ∀ n, getTlschSsl s.table cfd = some n → n ∉ s.sslFreed := by
  have hes : server.Meets EndsLast .start
      [.conn 5 true, .conn 6 true, .client 6 0, .conn 6 true, .client 6 (-1), .client 5 0] := by
        decide
  exact ⟨_, rfl, tls_objects_freed_once_of_endsLast hes rfl⟩

/-- The first of two connections ends and its descriptor is used again: the
lookup finds the freed `SSL` of its earlier owner, and the next release frees
that and its `SSL_CTX` once more. -/
theorem tls_objects_freed_twice :
    (∃ s, server.run .start [.conn 5 true, .conn 6 true, .client 5 0, .conn 5 true] = some s ∧
      5 ∈ s.watched ∧ getTlschSsl s.table 5 = some 0 ∧ 0 ∈ s.sslFreed) ∧
    ∃ s, server.run .start [.conn 5 true, .conn 6 true, .client 5 0, .conn 5 true, .client 5 0] =
      some s ∧ s.sslFreed = [0, 0, 2] ∧ s.ctxFreed = [0, 0, 2] :=
  ⟨⟨_, rfl, by decide, rfl, by decide⟩, _, rfl, rfl, rfl⟩

end Linuxyz.Tls
