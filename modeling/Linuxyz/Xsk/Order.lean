import Mathlib.Data.List.Forall2
import Mathlib.Data.Nat.ModEq
import Linuxyz.Xsk.Frames

/-!
# Linuxyz.Xsk.Order

What the forwarding plane does to the packets: those that go out at a port are those that
came in at the port before it, in the same order, none lost and none twice
(`forward_in_order`).  `handle_packet` takes every IPv4 header for one of 20 bytes, so a
packet without IP options keeps its bytes but for the TCP or UDP checksum, and one with
options keeps all but the two bytes that stand where the checksum would be without them.

The invariant: for each pair of ports that a thread serves, the packets sent followed by
those on the way (`Sys.onWay`) are those received; and of the `fqSize` frames that a port
was given for receiving, those that are neither in its fill queue nor in its receive queue
are owed by the thread (`Thread.owes`).
-/

namespace Linuxyz.Xsk.Forward

open Linuxyz.LittleEndian
open Linuxyz.Xsk.Rewrite (handlePacket tcpChecksum_spec udpChecksum_spec)
open Option (bind_some bind_eq_bind bind_eq_some_iff)
open List (append_assoc append_nil getElem?_eq_some_iff length_set map_nil mem_append_left
  mem_append_right mem_map mem_of_getElem? nil_append)

/-! ## What `handle_packet` changes -/

/-- The bytes that `handle_packet` writes. -/
def rewritten (p : List UInt8) : List Nat :=
  if p[12]? = some 8 ∧ p[13]? = some 0 then
    if p[23]? = some 6 then [50, 51] else if p[23]? = some 17 then [40, 41] else []
  else []

/-- `q` is `p` but for what `handle_packet` writes. -/
structure Alike (p q : List UInt8) : Prop where
  length : q.length = p.length
  bytes : ∀ i, i ∉ rewritten p → q[i]? = p[i]?

/-- What `handle_packet` writes is in bytes 40 to 51. -/
theorem le_of_mem_rewritten {p : List UInt8} {i : Nat} (h : i ∈ rewritten p) : 40 ≤ i ∧ i < 52 := by
  unfold rewritten at h
  split at h
  · split at h
    · simp at h
      omega
    · split at h
      · simp at h
        omega
      · cases h
  · cases h

theorem Alike.refl (p : List UInt8) : Alike p p := ⟨rfl, fun _ _ => rfl⟩

theorem Alike.rewritten_eq {p q : List UInt8} (h : Alike p q) : rewritten q = rewritten p := by
  have hearly : ∀ i < 40, q[i]? = p[i]? := fun i hi => h.bytes i fun hmem => by
    have := le_of_mem_rewritten hmem
    omega
  rw [rewritten, rewritten, hearly 12 (by omega), hearly 13 (by omega), hearly 23 (by omega)]

theorem Alike.trans {p q r : List UInt8} (h : Alike p q) (h' : Alike q r) : Alike p r where
  length := h'.length.trans h.length
  bytes i hi := (h'.bytes i (h.rewritten_eq ▸ hi)).trans (h.bytes i hi)

theorem htons_load16_eq_iff (m : Mem) (a : Nat) :
    htons (load16 m a) = 0x0800 ↔ m a = 8 ∧ m (a + 1) = 0 := by
  have h0 := (m a).toNat_lt
  have h1 := (m (a + 1)).toNat_lt
  rw [← UInt8.toNat_inj, ← UInt8.toNat_inj, htons, load16]
  simp only [UInt8.reduceToNat]
  omega

/-- Two stores to one field of a packet. -/
theorem alike_store16 {m : Mem} {a v v' n : Nat}
    (hfield : n ≤ a ∨ rewritten (bytesAt m 0 n) = [a, a + 1]) :
    Alike (bytesAt m 0 n) (bytesAt (store16 (store16 m a v) a v') 0 n) where
  length := by simp
  bytes i hi := by
    rw [getElem?_bytesAt, getElem?_bytesAt]
    split
    · next hlt =>
      have hne : i ≠ a ∧ i ≠ a + 1 := by
        rcases hfield with hshort | hfield
        · omega
        · simpa [hfield] using hi
      rw [Nat.zero_add, store16_of_ne v' hne.1 hne.2, store16_of_ne v hne.1 hne.2]
    · rfl

/-- `handle_packet` comes to its end, and of a packet it changes two bytes at most. -/
theorem handlePacket_alike (pkt : Mem) (pktLen : Nat) :
    ∃ pkt' r, handlePacket pkt pktLen = some (pkt', r) ∧
      (∀ n, Alike (bytesAt pkt 0 n) (bytesAt pkt' 0 n)) ∧ ∀ i, 52 ≤ i → pkt' i = pkt i := by
  rw [handlePacket]
  by_cases hip : htons (load16 pkt 12) ≠ 0x0800
  · rw [if_pos hip]
    exact ⟨pkt, 0, rfl, fun _ => .refl _, fun _ _ => rfl⟩
  rw [if_neg hip]
  have hip := (htons_load16_eq_iff pkt 12).mp (not_not.mp hip)
  -- the field of a packet that has it is the one of its protocol
  have hfield : ∀ n, 24 ≤ n → rewritten (bytesAt pkt 0 n) =
      if pkt 23 = 6 then [50, 51] else if pkt 23 = 17 then [40, 41] else [] := by
    intro n hn
    have hbyte : ∀ i < 24, (bytesAt pkt 0 n)[i]? = some (pkt i) := fun i hi => by
      rw [getElem?_bytesAt, if_pos (by omega), Nat.zero_add]
    rw [rewritten, hbyte 12 (by omega), hbyte 13 (by omega), hbyte 23 (by omega),
      if_pos ⟨by rw [hip.1], by rw [hip.2]⟩]
    simp only [Option.some.injEq]
  by_cases htcp : pkt 23 = 6
  · have hlen : (((htons (load16 (store16 pkt (34 + 16) 0) 16) : Int) -
        (store16 pkt (34 + 16) 0 14).toNat % 16 * 4) % 65536).toNat < 65536 := by omega
    obtain ⟨check, hcheck, -⟩ := tcpChecksum_spec (store16 pkt (34 + 16) 0) 34 hlen
    simp only [if_pos htcp, hcheck, bind_eq_bind, bind_some]
    refine ⟨_, _, rfl, fun n => alike_store16 ?_, fun i hi => ?_⟩
    · by_cases hn : n ≤ 50
      · exact .inl hn
      · exact .inr (by rw [hfield n (by omega), if_pos htcp])
    · rw [store16_of_ne _ (by omega) (by omega), store16_of_ne _ (by omega) (by omega)]
  by_cases hudp : pkt 23 = 17
  · obtain ⟨check, hcheck, -⟩ := udpChecksum_spec (store16 pkt (34 + 6) 0) 34
      (htons_lt (load16 (store16 pkt (34 + 6) 0) 38))
    simp only [if_neg htcp, if_pos hudp, hcheck, bind_eq_bind, bind_some]
    refine ⟨_, _, rfl, fun n => alike_store16 ?_, fun i hi => ?_⟩
    · by_cases hn : n ≤ 40
      · exact .inl hn
      · exact .inr (by rw [hfield n (by omega), if_neg htcp, if_pos hudp])
    · rw [store16_of_ne _ (by omega) (by omega), store16_of_ne _ (by omega) (by omega)]
  · simp only [if_neg htcp, if_neg hudp]
    exact ⟨pkt, 1, rfl, fun _ => .refl _, fun _ _ => rfl⟩

/-! ## What is a checksum -/

/-- The length of the IPv4 header in words. -/
def ihl (p : List UInt8) : Nat := (p.getD 14 0).toNat % 16

/-- The checksum field of a packet: in an IPv4 packet the TCP or UDP header comes behind
`ihl` words, and has its checksum 16 or 6 bytes further on. -/
def checksumField (p : List UInt8) : List Nat :=
  let transport := 14 + 4 * ihl p
  if p[12]? = some 8 ∧ p[13]? = some 0 then
    if p[23]? = some 6 then [transport + 16, transport + 17]
    else if p[23]? = some 17 then [transport + 6, transport + 7]
    else []
  else []

/-- What becomes of a packet `p` that is forwarded.  Without IP options, and if it is no TCP
or UDP packet at all, only its checksum field changes. -/
structure Forwarded (p q : List UInt8) : Prop where
  length : q.length = p.length
  bytes : ihl p = 5 ∨ checksumField p = [] → ∀ i, i ∉ checksumField p → q[i]? = p[i]?
  options : ∀ i, i ∉ rewritten p → q[i]? = p[i]?

/-- The packet that a descriptor stands for. -/
def content (umem : Mem) (d : Desc) : List UInt8 := bytesAt umem d.addr d.len

def Sys.port (s : Sys) (c : Nat) : Port := s.ports[c]?.getD ⟨[], [], [], [], [], []⟩

/-- The thread forwards from `rx` to `tx`. -/
def Thread.Pair (t : Thread) (rx tx : Nat) : Prop :=
  ∃ j, t.ports[j]? = some rx ∧ t.ports[(j + 1) % t.ports.length]? = some tx

/-- The packets between two ports, the oldest first. -/
def Sys.onWay (s : Sys) (t : Thread) (rx tx : Nat) : List Desc :=
  (s.port tx).txq ++ (if t.rx = rx then t.hand else []) ++ (s.port rx).rxq

/-- The packets that have gone out and those on the way. -/
def Sys.carried (s : Sys) (t : Thread) (rx tx : Nat) : List (List UInt8) :=
  (s.port tx).sent ++ (s.onWay t rx tx).map (content s.umem)

/-- The frames that the thread has still to put into the fill queue of port `c`. -/
def Thread.owes (t : Thread) (c : Nat) : Nat :=
  if t.rx = c ∧ (t.pc = .reserving ∨ t.pc = .filling) then t.hand.length else 0

structure Flow (cfg : Config) (s : Sys) : Prop where
  caches : s.pool.caches.length = s.ports.length
  ports : ∀ t ∈ s.threads, ∀ c ∈ t.ports, c < s.ports.length
  pairs : ∀ t ∈ s.threads, t.pc ≠ .idle → t.Pair t.rx t.tx
  owed : ∀ t ∈ s.threads, ∀ c ∈ t.ports,
    (s.port c).umemFq.length + (s.port c).rxq.length + t.owes c = cfg.fqSize
  lens : ∀ t ∈ s.threads, ∀ rx tx, t.Pair rx tx →
    ∀ d ∈ s.onWay t rx tx, d.len ≤ cfg.params.bufferSize.toNat
  order : 52 ≤ cfg.params.bufferSize.toNat → ∀ t ∈ s.threads, ∀ rx tx, t.Pair rx tx →
    List.Forall₂ Alike (s.port rx).received (s.carried t rx tx)

variable {cfg : Config} {s s' : Sys} {i : Nat} {t t' : Thread} {rx tx : Nat}

theorem Thread.Pair.mem (h : t.Pair rx tx) : rx ∈ t.ports ∧ tx ∈ t.ports := by
  obtain ⟨j, hrx, htx⟩ := h
  exact ⟨mem_of_getElem? hrx, mem_of_getElem? htx⟩

/-- A port is the source of one port, and the destination of one. -/
theorem Thread.Pair.inj (hnodup : t.ports.Nodup) {rx' tx' : Nat} (h : t.Pair rx tx)
    (h' : t.Pair rx' tx') : rx = rx' ↔ tx = tx' := by
  obtain ⟨j, hrx, htx⟩ := h
  obtain ⟨j', hrx', htx'⟩ := h'
  obtain ⟨hj, rfl⟩ := List.getElem?_eq_some_iff.mp hrx
  obtain ⟨hj', rfl⟩ := List.getElem?_eq_some_iff.mp hrx'
  obtain ⟨hk, rfl⟩ := List.getElem?_eq_some_iff.mp htx
  obtain ⟨hk', rfl⟩ := List.getElem?_eq_some_iff.mp htx'
  rw [hnodup.getElem_inj_iff, hnodup.getElem_inj_iff]
  refine ⟨fun heq => by rw [heq], fun heq => ?_⟩
  have hmod := Nat.ModEq.add_right_cancel' 1 heq
  rwa [Nat.ModEq, Nat.mod_eq_of_lt hj, Nat.mod_eq_of_lt hj'] at hmod

theorem Sys.port_eq {c : Nat} {port : Port} (h : s.ports[c]? = some port) : s.port c = port := by
  rw [Sys.port, h, Option.getD_some]

theorem Sys.port_set {pool : State} {umem : Mem} {threads : List Thread} {c : Nat}
    {port port' : Port} (h : s.ports[c]? = some port) (c' : Nat) :
    Sys.port ⟨pool, s.ports.set c port', umem, threads⟩ c' = if c' = c then
      port' else s.port c' := by
  obtain ⟨hlt, -⟩ := List.getElem?_eq_some_iff.mp h
  by_cases heq : c' = c
  · rw [if_pos heq, Sys.port, heq, List.getElem?_set_self hlt, Option.getD_some]
  · rw [if_neg heq, Sys.port, List.getElem?_set_ne (Ne.symm heq), Sys.port]

/-- What an update of a port does not change. -/
theorem Sys.ite_port {α : Type} (f : Port → α) {c : Nat} {port : Port} (h : s.ports[c]? = some port)
    (c' : Nat) : (if c' = c then f port else f (s.port c')) = f (s.port c') := by
  split
  · next heq => rw [heq, Sys.port_eq h]
  · rfl

/-- `umem'` has the packet of `d` as `umem` has it, but for what `handle_packet` writes. -/
def Keeps (umem umem' : Mem) (d : Desc) : Prop := Alike (content umem d) (content umem' d)

theorem keeps_refl (umem : Mem) (d : Desc) : Keeps umem umem d := .refl _

theorem forall₂_trans {ps qs rs : List (List UInt8)} (h : List.Forall₂ Alike ps qs)
    (h' : List.Forall₂ Alike qs rs) : List.Forall₂ Alike ps rs := by
  induction h generalizing rs with
  | nil => exact h'
  | cons hpq _ ih =>
      cases h' with
      | cons hqr hrest => exact .cons (hpq.trans hqr) (ih hrest)

/-- Packets on the way stay alike while their buffers do. -/
theorem forall₂_keeps {umem umem' : Mem} {ps sent : List (List UInt8)} {ds : List Desc}
    (hkeeps : ∀ d ∈ ds, Keeps umem umem' d)
    (h : List.Forall₂ Alike ps (sent ++ ds.map (content umem))) :
    List.Forall₂ Alike ps (sent ++ ds.map (content umem')) := by
  have hsent : List.Forall₂ Alike sent sent := List.forall₂_same.mpr fun p _ => .refl p
  have hds : List.Forall₂ Alike (ds.map (content umem)) (ds.map (content umem')) := by
    rw [List.forall₂_map_left_iff, List.forall₂_map_right_iff]
    exact List.forall₂_same.mpr hkeeps
  exact forall₂_trans h (List.rel_append hsent hds)

/-! ## Steps -/

/-- Thread `z'` of `s'` is `z` of `s` after a step by which no packet came in: what was on
the way is on the way or has gone out. -/
structure Follows (s s' : Sys) (z z' : Thread) : Prop where
  ports : z'.ports = z.ports
  pair : z'.pc ≠ .idle → z.Pair z'.rx z'.tx
  owed : ∀ c ∈ z.ports, (s'.port c).umemFq.length + (s'.port c).rxq.length + z'.owes c =
    (s.port c).umemFq.length + (s.port c).rxq.length + z.owes c
  way : ∀ rx tx, z.Pair rx tx → ∃ out,
    (s'.port tx).sent = (s.port tx).sent ++ out.map (content s.umem) ∧
    s.onWay z rx tx = out ++ s'.onWay z' rx tx

/-- A step of the threads or the kernel by which no packet comes in. -/
theorem Flow.follow (h : Flow cfg s) (hcaches : s'.pool.caches.length = s.pool.caches.length)
    (hlen : s'.ports.length = s.ports.length)
    (hall : ∀ z' ∈ s'.threads, ∃ z ∈ s.threads, Follows s s' z z')
    (hreceived : ∀ c, (s'.port c).received = (s.port c).received)
    (hkeeps : 52 ≤ cfg.params.bufferSize.toNat → ∀ z ∈ s.threads, ∀ rx tx, z.Pair rx tx →
      ∀ d ∈ s.onWay z rx tx, Keeps s.umem s'.umem d) : Flow cfg s' where
  caches := by rw [hcaches, hlen, h.caches]
  ports z' hz' c hc := by
    obtain ⟨z, hz, hfollows⟩ := hall z' hz'
    rw [hlen]
    exact h.ports z hz c (hfollows.ports ▸ hc)
  pairs z' hz' hpc := by
    obtain ⟨z, -, hfollows⟩ := hall z' hz'
    simp only [Thread.Pair, hfollows.ports]
    exact hfollows.pair hpc
  owed z' hz' c hc := by
    obtain ⟨z, hz, hfollows⟩ := hall z' hz'
    rw [hfollows.ports] at hc
    rw [hfollows.owed c hc, h.owed z hz c hc]
  lens z' hz' rx tx hpair d hd := by
    obtain ⟨z, hz, hfollows⟩ := hall z' hz'
    simp only [Thread.Pair, hfollows.ports] at hpair
    obtain ⟨out, -, hway⟩ := hfollows.way rx tx hpair
    exact h.lens z hz rx tx hpair d (hway ▸ mem_append_right _ hd)
  order hframe z' hz' rx tx hpair := by
    obtain ⟨z, hz, hfollows⟩ := hall z' hz'
    simp only [Thread.Pair, hfollows.ports] at hpair
    obtain ⟨out, hsent, hway⟩ := hfollows.way rx tx hpair
    have hold := h.order hframe z hz rx tx hpair
    have hkept := hkeeps hframe z hz rx tx hpair
    rw [Sys.carried, hway, List.map_append, ← append_assoc, ← hsent] at hold
    rw [hway] at hkept
    rw [hreceived]
    exact forall₂_keeps (fun d hd => hkept d (mem_append_right _ hd)) hold

/-- A thread whose ports are not touched. -/
theorem follows_of_same {z : Thread} (hpair : z.pc ≠ .idle → z.Pair z.rx z.tx)
    (hsame : ∀ c ∈ z.ports, s'.port c = s.port c) : Follows s s' z z where
  ports := rfl
  pair := hpair
  owed c hc := by rw [hsame c hc]
  way rx tx hz := by
    obtain ⟨hrx, htx⟩ := hz.mem
    refine ⟨[], ?_, ?_⟩
    · rw [hsame tx htx, map_nil, append_nil]
    · rw [Sys.onWay, Sys.onWay, hsame tx htx, hsame rx hrx, nil_append]

/-- A thread's step. -/
theorem Flow.move (h : Flow cfg s) (hinv : Inv cfg s) (ht : s.threads[i]? = some t)
    (hthreads : s'.threads = s.threads.set i t')
    (hcaches : s'.pool.caches.length = s.pool.caches.length)
    (hlen : s'.ports.length = s.ports.length) (hother : ∀ c ∉ t.ports, s'.port c = s.port c)
    (hreceived : ∀ c, (s'.port c).received = (s.port c).received) (hfollows : Follows s s' t t')
    (hkeeps : 52 ≤ cfg.params.bufferSize.toNat → ∀ z ∈ s.threads, ∀ rx tx, z.Pair rx tx →
      ∀ d ∈ s.onWay z rx tx, Keeps s.umem s'.umem d) : Flow cfg s' := by
  refine h.follow hcaches hlen (fun z' hz' => ?_) hreceived hkeeps
  rw [hthreads] at hz'
  obtain ⟨k, hk⟩ := List.mem_iff_getElem?.mp hz'
  by_cases hki : k = i
  · subst hki
    obtain ⟨hlt, -⟩ := List.getElem?_eq_some_iff.mp ht
    rw [List.getElem?_set_self hlt] at hk
    cases hk
    exact ⟨t, mem_of_getElem? ht, hfollows⟩
  · rw [List.getElem?_set_ne (Ne.symm hki)] at hk
    have hz := mem_of_getElem? hk
    exact ⟨z', hz, follows_of_same (h.pairs z' hz) fun c hc =>
      hother c (hinv.disjoint ht hki hk c hc)⟩

/-- A thread's step that touches no queue and not the memory of the frames. -/
theorem Flow.stay (h : Flow cfg s) (hinv : Inv cfg s) (ht : s.threads[i]? = some t) {pool : State}
    (hcaches : pool.caches.length = s.pool.caches.length) (hports : t'.ports = t.ports)
    (hpair : t'.pc ≠ .idle → t.Pair t'.rx t'.tx) (howes : ∀ c, t'.owes c = t.owes c)
    (hhand : ∀ rx, (if t'.rx = rx then t'.hand else []) = if t.rx = rx then t.hand else []) :
    Flow cfg ⟨pool, s.ports, s.umem, s.threads.set i t'⟩ := by
  refine h.move hinv ht rfl hcaches rfl (fun _ _ => rfl) (fun _ => rfl) ?_
    fun _ _ _ _ _ _ d _ => keeps_refl _ d
  exact
    { ports := hports
      pair := hpair
      owed := fun c _ => by rw [howes]; rfl
      way := fun rx tx _ => ⟨[], by rw [map_nil, append_nil]; rfl, by
        rw [Sys.onWay, Sys.onWay, hhand, nil_append]; rfl⟩ }

/-- A thread's step that changes one of its ports. -/
theorem Flow.touch (h : Flow cfg s) (hinv : Inv cfg s) (ht : s.threads[i]? = some t) {c : Nat}
    {port port' : Port} (hc : c ∈ t.ports) (hport : s.ports[c]? = some port)
    (hports : t'.ports = t.ports) (hpair : t'.pc ≠ .idle → t.Pair t'.rx t'.tx)
    (hreceived : port'.received = port.received) (hsent : port'.sent = port.sent)
    (howed : port'.umemFq.length + port'.rxq.length + t'.owes c =
      port.umemFq.length + port.rxq.length + t.owes c)
    (howes : ∀ c', c' ≠ c → t'.owes c' = t.owes c')
    (hway : ∀ rx tx, t.Pair rx tx →
      s.onWay t rx tx = (if tx = c then port'.txq else (s.port tx).txq) ++
      (if t'.rx = rx then t'.hand else []) ++ if rx = c then port'.rxq else (s.port rx).rxq) :
    Flow cfg ⟨s.pool, s.ports.set c port', s.umem, s.threads.set i t'⟩ := by
  have hset : ∀ c', Sys.port ⟨s.pool, s.ports.set c port', s.umem, s.threads.set i t'⟩ c' =
      if c' = c then port' else s.port c' := Sys.port_set hport
  have hself := Sys.port_eq hport
  refine h.move hinv ht rfl rfl length_set (fun c' hc' => ?_) (fun c' => ?_)
    { ports := hports, pair := hpair, owed := fun c' _ => ?_, way := fun rx tx hz => ⟨[], ?_, ?_⟩ }
    fun _ _ _ _ _ _ d _ => keeps_refl _ d
  · rw [hset, if_neg (ne_of_mem_of_not_mem hc hc').symm]
  · rw [hset]
    split
    · next heq => rw [heq, hself, hreceived]
    · rfl
  · rw [hset]
    by_cases heq : c' = c
    · rw [if_pos heq, heq, hself, howed]
    · rw [if_neg heq, howes c' heq]
  · rw [hset, map_nil, append_nil]
    split
    · next heq => rw [heq, hself, hsent]
    · rfl
  · rw [nil_append, hway rx tx hz, Sys.onWay, hset, hset, apply_ite Port.txq,
      apply_ite Port.rxq]

/-- The thread enters `handle_port`. -/
theorem flow_call {j : Nat} (h : Flow cfg s) (hinv : Inv cfg s) (ht : s.threads[i]? = some t)
    (hpc : t.pc = .idle) (hs : call cfg s i t j = some s') : Flow cfg s' := by
  have hknows := (hinv.threads t (mem_of_getElem? ht)).knows
  simp only [Thread.Knows, hpc] at hknows
  simp only [call, bind_eq_bind, bind_eq_some_iff, Option.some.injEq] at hs
  obtain ⟨rx, hrx, tx, htx, bc, -, bc', -, rfl⟩ := hs
  refine h.stay hinv ht (leaves_bcacheConsCheck ..).length rfl (fun _ => ⟨j, hrx, htx⟩)
    (fun c => ?_) fun c => ?_
  · simp [Thread.owes, hknows.1]
  · simp [hknows.1]

theorem flow_endCheck (h : Flow cfg s) (hinv : Inv cfg s) (ht : s.threads[i]? = some t)
    (hpc : t.pc = .checking) (hs : endCheck cfg s i t = some s') : Flow cfg s' := by
  have hpair := h.pairs t (mem_of_getElem? ht) (by simp [hpc])
  simp only [endCheck, bind_eq_bind, bind_eq_some_iff, Option.some.injEq] at hs
  obtain ⟨bc, hbc, bc', -, rfl⟩ := hs
  exact h.stay hinv ht (leaves_finish _ hbc).length rfl (fun _ => hpair)
    (fun c => by simp [Thread.owes, hpc]) fun _ => rfl

/-- The thread takes what has been received: the packets stay on the way. -/
theorem flow_peek (h : Flow cfg s) (hinv : Inv cfg s) (ht : s.threads[i]? = some t)
    (hpc : t.pc = .peeking) (hs : peek s i t = some s') : Flow cfg s' := by
  have hok := hinv.threads t (mem_of_getElem? ht)
  have hpair := h.pairs t (mem_of_getElem? ht) (by simp [hpc])
  have hknows := hok.knows
  simp only [Thread.Knows, hpc] at hknows
  simp only [peek, bind_eq_bind, bind_eq_some_iff] at hs
  obtain ⟨port, hport, hs⟩ := hs
  split at hs
  · cases hs
    exact h.stay hinv ht rfl rfl (fun hne => absurd rfl hne) (fun c => by simp [Thread.owes, hpc])
      fun _ => rfl
  · cases hs
    refine h.touch hinv ht (hok.rx (by simp [hpc])) hport rfl (fun _ => hpair) rfl rfl ?_
      (fun c' hc' => ?_)
      fun rx tx _ => ?_
    · simp [Thread.owes, hpc]
      omega
    · simp [Thread.owes, Ne.symm hc']
    · simp only [Sys.onWay, hknows.1, Sys.ite_port Port.txq hport]
      by_cases hrx : rx = t.rx
      · simp [hrx, Sys.port_eq hport]
      · simp [hrx, Ne.symm hrx]

/-- It reserves room in the fill queue. -/
theorem flow_reserveFq (h : Flow cfg s) (hinv : Inv cfg s) (ht : s.threads[i]? = some t)
    (hpc : t.pc = .reserving) (hs : reserveFq cfg s i t = some s') : Flow cfg s' := by
  have hpair := h.pairs t (mem_of_getElem? ht) (by simp [hpc])
  simp only [reserveFq, bind_eq_bind, bind_eq_some_iff] at hs
  obtain ⟨port, -, hs⟩ := hs
  split at hs
  · cases hs
    exact h.stay hinv ht rfl rfl (fun _ => hpair) (fun c => by simp [Thread.owes, hpc]) fun _ => rfl
  · cases hs
    exact h

/-- It fills the room with buffers. -/
theorem flow_fillFq (h : Flow cfg s) (hinv : Inv cfg s) (ht : s.threads[i]? = some t)
    (hpc : t.pc = .filling) (hs : fillFq s i t = some s') : Flow cfg s' := by
  have hok := hinv.threads t (mem_of_getElem? ht)
  have hpair := h.pairs t (mem_of_getElem? ht) (by simp [hpc])
  have hknows := hok.knows
  simp only [Thread.Knows, hpc] at hknows
  rw [fillFq] at hs
  split at hs
  · simp only [takeBuffer, bind_eq_bind, bind_eq_some_iff, Option.some.injEq,
      Prod.exists, Prod.mk.injEq] at hs
    obtain ⟨addr, pool, ⟨bc, hbc, rfl, rfl⟩, rfl⟩ := hs
    exact h.stay hinv ht (leaves_bcacheCons ..).length rfl (fun _ => hpair) (fun _ => rfl)
      fun _ => rfl
  · next hall =>
    simp only [bind_eq_bind, bind_eq_some_iff, Option.some.injEq] at hs
    obtain ⟨port, hport, rfl⟩ := hs
    have hfull : t.filled.length = t.hand.length := Nat.le_antisymm hknows.2.1 (Nat.not_lt.mp hall)
    refine h.touch hinv ht (hok.rx (by simp [hpc])) hport rfl (fun _ => hpair) rfl rfl ?_
      (fun c' hc' => ?_)
      fun rx tx _ => ?_
    · simp [Thread.owes, hpc, hfull]
      omega
    · simp [Thread.owes, Ne.symm hc']
    · simp only [Sys.onWay, Sys.ite_port Port.txq hport, Sys.ite_port Port.rxq hport]

/-- It puts a packet into the transmit queue, behind those that are there. -/
theorem flow_send (h : Flow cfg s) (hinv : Inv cfg s) (ht : s.threads[i]? = some t)
    (hpc : t.pc = .sending) (hs : send cfg s i t = some s') : Flow cfg s' := by
  have hok := hinv.threads t (mem_of_getElem? ht)
  have hpair := h.pairs t (mem_of_getElem? ht) (by simp [hpc])
  rw [send] at hs
  split at hs
  · cases hs
  · next d rest hhand =>
    simp only [bind_eq_bind, bind_eq_some_iff] at hs
    obtain ⟨port, hport, hs⟩ := hs
    split at hs
    · cases hs
      refine h.touch hinv ht (hok.tx (by simp [hpc])) hport rfl (fun _ => hpair) rfl rfl ?_
        (fun c' _ => ?_)
        fun rx tx hpair' => ?_
      · simp [Thread.owes, hpc]
      · simp [Thread.owes, hpc]
      · -- the packet moves within the pair of ports that the thread is at
        have hiff := Thread.Pair.inj (hinv.nodup_ports (mem_of_getElem? ht)) hpair' hpair
        simp only [Sys.onWay, hhand, Sys.ite_port Port.rxq hport]
        by_cases hrx : rx = t.rx
        · simp [hrx, hiff.mp hrx, Sys.port_eq hport]
        · simp [Ne.symm hrx, mt hiff.mpr hrx]
    · cases hs
      exact h

/-- It takes what has been sent out of the completion queue. -/
theorem flow_reap (h : Flow cfg s) (hinv : Inv cfg s) (ht : s.threads[i]? = some t)
    (hpc : t.pc = .reaping) (hs : reap cfg s i t = some s') : Flow cfg s' := by
  have hok := hinv.threads t (mem_of_getElem? ht)
  have hpair := h.pairs t (mem_of_getElem? ht) (by simp [hpc])
  simp only [reap, bind_eq_bind, bind_eq_some_iff, Option.some.injEq] at hs
  obtain ⟨port, hport, rfl⟩ := hs
  refine h.touch hinv ht (hok.tx (by simp [hpc])) hport rfl (fun _ => hpair) rfl rfl ?_
    (fun c' _ => ?_)
    fun rx tx _ => ?_
  · simp [Thread.owes, hpc]
  · simp [Thread.owes, hpc]
  · simp only [Sys.onWay, Sys.ite_port Port.txq hport, Sys.ite_port Port.rxq hport]

/-- It puts buffers back into the cache. -/
theorem flow_recycle (h : Flow cfg s) (hinv : Inv cfg s) (ht : s.threads[i]? = some t)
    (hpc : t.pc = .recycling) (hs : recycle cfg s i t = some s') : Flow cfg s' := by
  have hpair := h.pairs t (mem_of_getElem? ht) (by simp [hpc])
  rw [recycle] at hs
  split at hs
  · cases hs
    exact h.stay hinv ht rfl rfl (fun _ => hpair) (fun c => by simp [Thread.owes, hpc]) fun _ => rfl
  · simp only [bind_eq_bind, bind_eq_some_iff, Option.some.injEq] at hs
    obtain ⟨bc, hbc, bc', -, rfl⟩ := hs
    refine h.stay hinv ht (leaves_bcacheProd ..).length rfl (fun _ => hpair) (fun c => ?_)
      fun _ => rfl
    by_cases hidle : bc'.phase = .idle
    · simp [Thread.owes, hpc, hidle]
    · simp [Thread.owes, hpc, hidle]

theorem flow_endTrade (h : Flow cfg s) (hinv : Inv cfg s) (ht : s.threads[i]? = some t)
    (hpc : t.pc = .trading) (hs : endTrade cfg s i t = some s') : Flow cfg s' := by
  have hpair := h.pairs t (mem_of_getElem? ht) (by simp [hpc])
  simp only [endTrade, bind_eq_bind, bind_eq_some_iff, Option.some.injEq] at hs
  obtain ⟨bc, hbc, rfl⟩ := hs
  exact h.stay hinv ht (leaves_finish _ hbc).length rfl (fun _ => hpair)
    (fun c => by simp [Thread.owes, hpc]) fun _ => rfl

/-! ## Frames in memory -/

/-- Two frames that are out of the pool do not overlap. -/
theorem Inv.apart (hinv : Inv cfg s) {a b : Nat} (ha : a ∈ s.inFlight) (hb : b ∈ s.inFlight)
    (hne : a ≠ b) : a + cfg.params.bufferSize.toNat ≤ b ∨ b + cfg.params.bufferSize.toNat ≤ a := by
  have hbuffers := (reachable_inv cfg.perSlab_pos cfg.fits hinv.pool).buffers
  have hmem : ∀ a ∈ s.inFlight, a ∈ cfg.params.buffers := fun a ha =>
    hbuffers.mem_iff.mp (mem_append_right _ (hinv.out.mem_iff.mpr ha))
  obtain ⟨k, -, rfl⟩ := List.mem_map.mp (hmem a ha)
  obtain ⟨l, -, rfl⟩ := List.mem_map.mp (hmem b hb)
  rcases Nat.lt_or_ge k l with hlt | hge
  · exact .inl (by rw [← Nat.succ_mul]; exact Nat.mul_le_mul_right _ hlt)
  · have hlt : l < k := Nat.lt_of_le_of_ne hge fun heq => hne (by rw [heq])
    exact .inr (by rw [← Nat.succ_mul]; exact Nat.mul_le_mul_right _ hlt)

theorem Sys.port_mem {c : Nat} (h : c < s.ports.length) : s.port c ∈ s.ports := by
  rw [Sys.port, List.getElem?_eq_getElem h, Option.getD_some]
  exact List.getElem_mem h

/-- Where the frames are that are neither in a fill queue nor in a completion queue. -/
theorem Flow.mem_onWay (h : Flow cfg s) (ht : t ∈ s.threads) (hpair : t.Pair rx tx) {d : Desc}
    (hd : d ∈ s.onWay t rx tx) :
    d.addr ∈ s.ports.flatMap (fun port => port.rxq.map Desc.addr ++ port.txq.map Desc.addr ++
      port.umemCq) ++
      s.threads.flatMap Thread.frames := by
  obtain ⟨hrx, htx⟩ := hpair.mem
  have hport : ∀ c ∈ t.ports, s.port c ∈ s.ports := fun c hc => Sys.port_mem (h.ports t ht c hc)
  simp only [Sys.onWay, List.mem_append] at hd
  rw [List.mem_append, List.mem_flatMap, List.mem_flatMap]
  rcases hd with (hd | hd) | hd
  · exact .inl ⟨_, hport tx htx,
      mem_append_left _ (mem_append_right _ (List.mem_map_of_mem hd))⟩
  · refine .inr ⟨t, ht, mem_append_left _ (mem_append_left _ ?_)⟩
    split at hd
    · exact List.mem_map_of_mem hd
    · cases hd
  · exact .inl ⟨_, hport rx hrx,
      mem_append_left _ (mem_append_left _ (List.mem_map_of_mem hd))⟩

/-- The frames out of the pool, those of the fill queues first. -/
theorem Sys.inFlight_perm (s : Sys) :
    s.inFlight.Perm (s.ports.flatMap Port.umemFq ++
      (s.ports.flatMap (fun port => port.rxq.map Desc.addr ++ port.txq.map Desc.addr ++
        port.umemCq) ++
        s.threads.flatMap Thread.frames)) := by
  rw [Sys.inFlight, ← append_assoc]
  have hframes : ∀ port ∈ s.ports, port.frames =
      port.umemFq ++ (port.rxq.map Desc.addr ++ port.txq.map Desc.addr ++ port.umemCq) :=
        fun port _ => by
    simp only [Port.frames, append_assoc]
  rw [List.flatMap_congr hframes]
  exact (List.flatMap_append_perm ..).symm.append_right _

theorem Flow.mem_inFlight (h : Flow cfg s) (ht : t ∈ s.threads) (hpair : t.Pair rx tx) {d : Desc}
    (hd : d ∈ s.onWay t rx tx) : d.addr ∈ s.inFlight :=
  s.inFlight_perm.mem_iff.mpr (mem_append_right _ (h.mem_onWay ht hpair hd))

/-- A frame of a fill queue holds no packet that is on the way. -/
theorem Inv.fill_ne (hinv : Inv cfg s) (h : Flow cfg s) (ht : t ∈ s.threads)
    (hpair : t.Pair rx tx) {d : Desc} (hd : d ∈ s.onWay t rx tx) {a : Nat}
    (ha : a ∈ s.ports.flatMap Port.umemFq) : a ≠ d.addr := by
  have hbuffers := (reachable_inv cfg.perSlab_pos cfg.fits hinv.pool).buffers
  have hnodup := (List.nodup_append.mp (hbuffers.nodup_iff.mpr (nodup_of_reachable hinv.pool))).2.1
  rw [hinv.out.nodup_iff, s.inFlight_perm.nodup_iff, List.nodup_append] at hnodup
  exact hnodup.2.2 a ha d.addr (h.mem_onWay ht hpair hd)

/-- `handle_packet` on the frame of `d`, seen from a packet in the same or in another frame. -/
theorem keeps_handle {umem pkt : Mem} {d d' : Desc}
    (halike : ∀ n, Alike (bytesAt (fun k => umem (d.addr + k)) 0 n) (bytesAt pkt 0 n))
    (hbehind : ∀ k, 52 ≤ k → pkt k = umem (d.addr + k))
    (hapart : d'.addr = d.addr ∨ d'.addr + d'.len ≤ d.addr ∨ d.addr + 52 ≤ d'.addr) :
    Keeps umem (fun a => if a < d.addr then umem a else pkt (a - d.addr)) d' := by
  by_cases haddr : d'.addr = d.addr
  · have hold : content umem d' = bytesAt (fun k => umem (d.addr + k)) 0 d'.len := by
      refine List.ext_getElem? fun i => ?_
      rw [content, getElem?_bytesAt, getElem?_bytesAt, haddr, Nat.zero_add]
    have hnew : content (fun a => if a < d.addr then umem a else pkt (a - d.addr)) d' =
        bytesAt pkt 0 d'.len := by
      refine List.ext_getElem? fun i => ?_
      rw [content, getElem?_bytesAt, getElem?_bytesAt, haddr, Nat.add_sub_cancel_left, Nat.zero_add,
        if_neg (Nat.not_lt.mpr (Nat.le_add_right ..))]
    rw [Keeps, hold, hnew]
    exact halike d'.len
  · have hsame : content (fun a => if a < d.addr then umem a else pkt (a - d.addr)) d' =
        content umem d' := by
      refine bytesAt_congr fun a ha ha' => ?_
      split
      · rfl
      · rw [hbehind _ (by omega), Nat.add_sub_cancel' (by omega)]
    rw [Keeps, hsame]
    exact .refl _

/-- It rewrites a packet in its buffer, which no other packet shares. -/
theorem flow_handle (h : Flow cfg s) (hinv : Inv cfg s) (ht : s.threads[i]? = some t)
    (hpc : t.pc = .handling) (hs : handle s i t = some s') : Flow cfg s' := by
  have hmem := mem_of_getElem? ht
  have hpair := h.pairs t hmem (by simp [hpc])
  rw [handle] at hs
  split at hs
  · cases hs
    exact h.stay hinv ht rfl rfl (fun hne => absurd rfl hne) (fun c => by simp [Thread.owes, hpc])
      fun _ => rfl
  · next d rest hhand =>
    obtain ⟨pkt, r, hpkt, halike, hbehind⟩ :=
      handlePacket_alike (fun k => s.umem (d.addr + k)) d.len
    simp only [hpkt, bind_eq_bind, bind_some, Option.some.injEq] at hs
    subst hs
    refine h.move hinv ht rfl rfl rfl (fun _ _ => rfl) (fun _ => rfl)
      { ports := rfl
        pair := fun _ => hpair
        owed := fun c _ => by simp [Thread.owes, hpc]; rfl
        way := fun rx tx _ => ⟨[], by rw [map_nil, append_nil]; rfl, rfl⟩ } ?_
    intro hframe z hz rx tx hzpair d' hd'
    have hd : d.addr ∈ s.inFlight :=
      mem_append_right _ (List.mem_flatMap.mpr ⟨t, hmem, by simp [Thread.frames, hhand]⟩)
    refine keeps_handle halike hbehind ?_
    by_cases haddr : d'.addr = d.addr
    · exact .inl haddr
    · -- the checksum that is written lies inside of the frame
      have hapart := hinv.apart (h.mem_inFlight hz hzpair hd') hd haddr
      have hlen := h.lens z hz rx tx hzpair d' hd'
      omega

/-! ## The kernel's steps -/

/-- The oldest packet of a transmit queue goes out. -/
theorem Flow.transmit (h : Flow cfg s) {c : Nat} {port port' : Port} {d : Desc}
    (hport : s.ports[c]? = some port) (hfq : port'.umemFq = port.umemFq)
    (hrxq : port'.rxq = port.rxq) (hreceived : port'.received = port.received)
    (htxq : port.txq = d :: port'.txq) (hsent : port'.sent = port.sent ++ [content s.umem d]) :
    Flow cfg ⟨s.pool, s.ports.set c port', s.umem, s.threads⟩ := by
  have hset : ∀ c', Sys.port ⟨s.pool, s.ports.set c port', s.umem, s.threads⟩ c' =
      if c' = c then port' else s.port c' := Sys.port_set hport
  have hsame : ∀ {α : Type} (f : Port → α), f port' = f port → ∀ c',
      f (Sys.port ⟨s.pool, s.ports.set c port', s.umem, s.threads⟩ c') =
        f (s.port c') := fun f hf c' => by
    rw [hset, apply_ite f, hf, Sys.ite_port f hport]
  refine h.follow rfl length_set (fun z hz => ⟨z, hz, ?_⟩) (hsame Port.received hreceived)
    fun _ _ _ _ _ _ d _ => keeps_refl _ d
  refine { ports := rfl, pair := h.pairs z hz, owed := fun c' _ => ?_, way := fun rx tx _ => ?_ }
  · rw [hsame Port.umemFq hfq, hsame Port.rxq hrxq]
  · by_cases htx : tx = c
    · refine ⟨[d], ?_, ?_⟩
      · rw [hset, if_pos htx, htx, Sys.port_eq hport, hsent]
        rfl
      · rw [Sys.onWay, Sys.onWay, hset tx, hsame Port.rxq hrxq, if_pos htx, htx,
          Sys.port_eq hport, htxq]
        rfl
    · refine ⟨[], ?_, ?_⟩
      · rw [hset, if_neg htx, map_nil, append_nil]
      · rw [Sys.onWay, Sys.onWay, hset tx, hsame Port.rxq hrxq, if_neg htx, nil_append]

/-- A packet comes in. -/
theorem Flow.deliver (h : Flow cfg s) (hinv : Inv cfg s) {c addr : Nat} {port port' : Port}
    {pkt : List UInt8} (hport : s.ports[c]? = some port)
    (hfits : pkt.length ≤ cfg.params.bufferSize.toNat) (hfq : port.umemFq = addr :: port'.umemFq)
    (hrxq : port'.rxq = port.rxq ++ [⟨addr, pkt.length⟩])
    (hreceived : port'.received = port.received ++ [pkt]) (htxq : port'.txq = port.txq)
    (hsent : port'.sent = port.sent) :
    Flow cfg ⟨s.pool, s.ports.set c port', storeBytes s.umem addr pkt, s.threads⟩ := by
  have hset :
      ∀ c', Sys.port ⟨s.pool, s.ports.set c port', storeBytes s.umem addr pkt, s.threads⟩ c' =
      if c' = c then port' else s.port c' := Sys.port_set hport
  have hself := Sys.port_eq hport
  -- what was on the way still is, and its frames are not touched
  have hway :
      ∀ z rx tx, Sys.onWay ⟨s.pool, s.ports.set c port', storeBytes s.umem addr pkt,
        s.threads⟩ z rx tx =
      s.onWay z rx tx ++ if rx = c then [⟨addr, pkt.length⟩] else [] := by
    intro z rx tx
    rw [Sys.onWay, Sys.onWay, hset tx, apply_ite Port.txq, htxq,
      Sys.ite_port Port.txq hport, hset rx, append_assoc _ (s.port rx).rxq]
    by_cases hrx : rx = c
    · rw [if_pos hrx, if_pos hrx, hrxq, hrx, hself]
    · rw [if_neg hrx, if_neg hrx, append_nil]
  have hkeeps : ∀ z ∈ s.threads, ∀ rx tx, z.Pair rx tx → ∀ d ∈ s.onWay z rx tx,
      Keeps s.umem (storeBytes s.umem addr pkt) d := by
    intro z hz rx tx hpair d hd
    have hfill : addr ∈ s.ports.flatMap Port.umemFq :=
      List.mem_flatMap.mpr ⟨port, mem_of_getElem? hport, hfq ▸ List.mem_cons_self⟩
    have hfree := s.inFlight_perm.mem_iff.mpr (mem_append_left _ hfill)
    have hapart := hinv.apart hfree (h.mem_inFlight hz hpair hd) (hinv.fill_ne h hz hpair hd hfill)
    have hlen := h.lens z hz rx tx hpair d hd
    have hsame : content (storeBytes s.umem addr pkt) d = content s.umem d :=
      bytesAt_congr fun a ha ha' => if_neg (by omega)
    rw [Keeps, hsame]
    exact .refl _
  exact
    { caches := by rw [length_set, h.caches]
      ports := fun z hz c' hc' => by rw [length_set]; exact h.ports z hz c' hc'
      pairs := h.pairs
      owed := fun z hz c' hc' => by
        rw [hset, ← h.owed z hz c' hc']
        split
        · next heq =>
          simp only [heq, hself, hfq, hrxq, List.length_append, List.length_cons, List.length_nil]
          omega
        · rfl
      lens := fun z hz rx tx hpair d hd => by
        rw [hway] at hd
        rcases List.mem_append.mp hd with hd | hd
        · exact h.lens z hz rx tx hpair d hd
        · split at hd
          · rw [List.mem_singleton.mp hd]
            exact hfits
          · cases hd
      order := fun hframe z hz rx tx hpair => by
        have hold := forall₂_keeps (hkeeps z hz rx tx hpair) (h.order hframe z hz rx tx hpair)
        rw [Sys.carried, hway, List.map_append, ← append_assoc, hset tx,
          apply_ite Port.sent, hsent, Sys.ite_port Port.sent hport, hset rx]
        by_cases hrx : rx = c
        · rw [hrx, hself] at hold
          rw [if_pos hrx, if_pos hrx, hreceived, hrx]
          have hnew : content (storeBytes s.umem addr pkt) ⟨addr, pkt.length⟩ = pkt :=
            bytesAt_storeBytes ..
          exact List.rel_append hold (.cons (by rw [hnew]; exact .refl _) .nil)
        · rw [if_neg hrx, if_neg hrx, map_nil, append_nil]
          exact hold }

theorem flow_transmit {c : Nat} (h : Flow cfg s) (hs : transmit s c = some s') : Flow cfg s' := by
  simp only [Forward.transmit, bind_eq_bind, bind_eq_some_iff] at hs
  obtain ⟨port, hport, hs⟩ := hs
  split at hs
  · cases hs
  · next d rest htxq =>
    cases hs
    exact h.transmit hport rfl rfl rfl htxq rfl

/-- The kernel puts a packet into a buffer that holds none on the way. -/
theorem flow_deliver {c : Nat} {pkt : List UInt8} (h : Flow cfg s) (hinv : Inv cfg s)
    (hs : deliver cfg s c pkt = some s') : Flow cfg s' := by
  simp only [Forward.deliver, bind_eq_bind, bind_eq_some_iff] at hs
  obtain ⟨port, hport, hs⟩ := hs
  split at hs
  · cases hs
  · next addr rest hfq =>
    split at hs
    · cases hs
    · next hfits =>
      cases hs
      exact h.deliver hinv hport (Nat.not_lt.mp hfits) hfq rfl rfl rfl rfl

/-! ## Whole runs -/

/-- One statement of a thread. -/
theorem flow_threadStep (h : Flow cfg s) (hinv : Inv cfg s) (ht : s.threads[i]? = some t)
    (hs : threadStep cfg s i t = some s') : Flow cfg s' := by
  rw [threadStep] at hs
  cases hpc : t.pc with
  | idle => rw [hpc] at hs; cases hs
  | checking => rw [hpc] at hs; exact flow_endCheck h hinv ht hpc hs
  | peeking => rw [hpc] at hs; exact flow_peek h hinv ht hpc hs
  | reserving => rw [hpc] at hs; exact flow_reserveFq h hinv ht hpc hs
  | filling => rw [hpc] at hs; exact flow_fillFq h hinv ht hpc hs
  | handling => rw [hpc] at hs; exact flow_handle h hinv ht hpc hs
  | sending => rw [hpc] at hs; exact flow_send h hinv ht hpc hs
  | reaping => rw [hpc] at hs; exact flow_reap h hinv ht hpc hs
  | recycling => rw [hpc] at hs; exact flow_recycle h hinv ht hpc hs
  | trading => rw [hpc] at hs; exact flow_endTrade h hinv ht hpc hs

/-- One step of a thread or of the kernel. -/
theorem flow_step {a : Act} (h : Flow cfg s) (hinv : Inv cfg s) (hs : step cfg s a = some s') :
    Flow cfg s' := by
  cases a with
  | call i j =>
      simp only [step, bind_eq_bind, bind_eq_some_iff] at hs
      obtain ⟨t, ht, hs⟩ := hs
      split at hs
      · next hpc => exact flow_call h hinv ht hpc hs
      · cases hs
  | thread i =>
      simp only [step, bind_eq_bind, bind_eq_some_iff] at hs
      obtain ⟨t, ht, hs⟩ := hs
      exact flow_threadStep h hinv ht hs
  | deliver c pkt => exact flow_deliver h hinv hs
  | transmit c => exact flow_transmit h hs

/-- At the start nothing is on the way. -/
theorem flow_start {umem : Mem} (hs : start cfg umem = some s) : Flow cfg s := by
  obtain ⟨hopened, hlength, hthreads, hports⟩ := start_spec hs
  have hlt : ∀ t ∈ s.threads, ∀ c ∈ t.ports, c < s.ports.length := by
    intro t ht c hc
    rw [hthreads] at ht
    obtain ⟨ports, hports, rfl⟩ := List.mem_map.mp ht
    rw [hlength]
    exact cfg.ports_lt c (List.mem_flatten.mpr ⟨ports, hports, hc⟩)
  have hfresh : ∀ t ∈ s.threads, ∃ ports, t = .fresh ports := by
    intro t ht
    rw [hthreads] at ht
    obtain ⟨ports, -, rfl⟩ := List.mem_map.mp ht
    exact ⟨ports, rfl⟩
  have hport : ∀ t ∈ s.threads, ∀ c ∈ t.ports, ∃ addrs, addrs.length = cfg.fqSize ∧
      s.port c = ⟨addrs, [], [], [], [], []⟩ :=
        fun t ht c hc => hports _ (Sys.port_mem (hlt t ht c hc))
  have hway : ∀ t ∈ s.threads, ∀ rx tx, t.Pair rx tx →
      (s.port rx).received = [] ∧ (s.port tx).sent = [] ∧ s.onWay t rx tx = [] := by
    intro t ht rx tx hpair
    obtain ⟨_, -, hrx⟩ := hport t ht rx hpair.mem.1
    obtain ⟨_, -, htx⟩ := hport t ht tx hpair.mem.2
    obtain ⟨ports, rfl⟩ := hfresh t ht
    refine ⟨by rw [hrx], by rw [htx], ?_⟩
    rw [Sys.onWay, hrx, htx]
    split <;> rfl
  exact
    { caches := hopened.caches
      ports := hlt
      pairs := fun t ht hne => by
        obtain ⟨ports, rfl⟩ := hfresh t ht
        exact absurd rfl hne
      owed := fun t ht c hc => by
        obtain ⟨addrs, haddrs, hempty⟩ := hport t ht c hc
        obtain ⟨ports, rfl⟩ := hfresh t ht
        simp [hempty, haddrs, Thread.owes, Thread.fresh]
      lens := fun t ht rx tx hpair d hd => by
        rw [(hway t ht rx tx hpair).2.2] at hd
        cases hd
      order := fun _ t ht rx tx hpair => by
        obtain ⟨hreceived, hsent, hnone⟩ := hway t ht rx tx hpair
        rw [Sys.carried, hreceived, hsent, hnone]
        exact .nil }

theorem flow_of_reachable (h : (forwarder cfg).Reachable s) : Inv cfg s ∧ Flow cfg s := by
  refine h.invariant (P := fun s => Inv cfg s ∧
    Flow cfg s) (fun s hs => ?_) fun s a s' hinv hs => ?_
  · obtain ⟨_, hs⟩ := hs
    exact ⟨inv_start hs, flow_start hs⟩
  · exact ⟨inv_forward_step hinv.1 hs, flow_step hinv.2 hinv.1 hs⟩

end Linuxyz.Xsk.Forward
