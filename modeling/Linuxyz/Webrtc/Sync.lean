import Linuxyz.Webrtc.Tracks
import Mathlib.Data.List.Nodup

/-!
# Linuxyz.Webrtc.Sync

`signalPeerConnections` and `attemptSync` of `0xetc/go/webrtc`: what each peer connection of a
room sends is brought in line with the tracks of the room, and each peer is sent an offer.

The calls into the library can fail at any point, and the attempt is then made again from the
start.  Tracks are told apart by their IDs alone.  When an attempt goes through, each peer is
sent every track ID of the room that does not come from itself, each once, and no other ID but
one that it was sent before it published it itself (`sync_exact`).  A track that is replaced
under its ID goes on being sent as the old object.

An attempt also ends at the first connection that is closed, which is taken out of the list:
the peers before it get their offer once more for each closed one behind them (`sync_offers`).
-/

namespace Linuxyz.Webrtc.Sync

/-! ## The functions -/

/-- A `peerConnectionState`, known by `conn`: the tracks of its senders, the IDs of those it
receives, and how many offers have been written to its websocket. -/
structure Peer where
  conn : Nat
  closed : Bool
  senders : List (Option Track)
  receivers : List (Option String)
  offers : Nat
deriving DecidableEq, Repr

/-- The IDs of the tracks that are sent to a peer. -/
def sends (senders : List (Option Track)) : List String :=
  (senders.filterMap fun t => t).map Track.id

/-- The IDs of the tracks that come from a peer. -/
def Peer.receives (p : Peer) : List String := p.receivers.filterMap fun id => id

/-- What the program does not decide: which calls into the library fail, and in which order a
map is ranged over. -/
structure Lib where
  fails : Nat → Bool
  order : Nat → List Track → List Track
  perm : ∀ n tracks, (order n tracks).Perm tracks

/-- The loop over `GetSenders`, which removes those of tracks that are gone; `n` counts the
calls. -/
def removeStale (lib : Lib) (ids : List String) :
    List (Option Track) → Nat → Bool × List (Option Track) × Nat
  | [], n => (true, [], n)
  | none :: senders, n =>
      let (ok, senders, n) := removeStale lib ids senders n
      (ok, none :: senders, n)
  | some t :: senders, n =>
      if t.id ∈ ids then
        let (ok, senders, n) := removeStale lib ids senders n
        (ok, some t :: senders, n)
      else if lib.fails n then (false, some t :: senders, n + 1)
      else removeStale lib ids senders (n + 1)

/-- The loop over `roomTrackLocals[k]`, which adds the tracks that are not sent yet. -/
def addMissing (lib : Lib) (existing : List String) :
    List Track → List (Option Track) → Nat → Bool × List (Option Track) × Nat
  | [], senders, n => (true, senders, n)
  | t :: tracks, senders, n =>
      if t.id ∈ existing then addMissing lib existing tracks senders n
      else if lib.fails n then (false, senders, n + 1)
      else addMissing lib existing tracks (senders ++ [some t]) (n + 1)

/-- `CreateOffer`, `SetLocalDescription` and `WriteJSON` -/
def sendOffer (lib : Lib) (p : Peer) (n : Nat) : Bool × Peer × Nat :=
  if lib.fails n then (false, p, n + 1)
  else if lib.fails (n + 1) then (false, p, n + 2)
  else if lib.fails (n + 2) then (false, p, n + 3)
  else (true, { p with offers := p.offers + 1 }, n + 3)

/-- The body of the loop of `attemptSync` for a connection that is not closed. -/
def syncPeer (lib : Lib) (tracks : List Track) (p : Peer) (n : Nat) : Bool × Peer × Nat :=
  let existingSenders := sends p.senders ++ p.receives
  let (ok, senders, n) := removeStale lib (tracks.map Track.id) p.senders n
  if ok then
    let (ok, senders, n) := addMissing lib existingSenders (lib.order n tracks) senders n
    if ok then sendOffer lib { p with senders := senders } n
    else (false, { p with senders := senders }, n)
  else (false, { p with senders := senders }, n)

/-- `attemptSync`; `true` asks for another attempt. -/
def attemptSync (lib : Lib) (tracks : List Track) : List Peer → Nat → Bool × List Peer × Nat
  | [], n => (false, [], n)
  | p :: peers, n =>
      if p.closed then (true, peers, n)
      else
        let (ok, p, n) := syncPeer lib tracks p n
        if ok then
          let (again, peers, n) := attemptSync lib tracks peers n
          (again, p :: peers, n)
        else (true, p :: peers, n)

/-- `signalPeerConnections` with `attempts` attempts left: whether one has gone through, or
another round is left to a goroutine that waits first. -/
def signalPeerConnections (lib : Lib) (tracks : List Track) :
    Nat → List Peer → Nat → Bool × List Peer × Nat
  | 0, peers, n => (false, peers, n)
  | attempts + 1, peers, n =>
      let (again, peers, n) := attemptSync lib tracks peers n
      if again then signalPeerConnections lib tracks attempts peers n else (true, peers, n)

variable {lib : Lib} {tracks : List Track} {p : Peer} {n n' : Nat}

/-! ## One connection -/

theorem sends_append (senders : List (Option Track)) (added : List Track) :
    sends (senders ++ added.map some) = sends senders ++ added.map Track.id := by
  simp [sends, List.filterMap_append, List.filterMap_map]

/-- Senders of tracks of the room stay, and if no call fails only they do. -/
theorem removeStale_spec (lib : Lib) (ids : List String) (senders : List (Option Track)) (n : Nat) :
    let r := removeStale lib ids senders n
    (sends r.2.1).Sublist (sends senders) ∧ (∀ id ∈ sends senders, id ∈ ids → id ∈ sends r.2.1) ∧
      (r.1 = true → ∀ id ∈ sends r.2.1, id ∈ ids) := by
  induction senders generalizing n with
  | nil => exact ⟨.refl _, fun id hid _ => hid, fun _ id hid => absurd hid List.not_mem_nil⟩
  | cons sender senders ih =>
      cases sender with
      | none => exact ih n
      | some t =>
          simp only [removeStale]
          split
          · next hmem =>
              obtain ⟨hsub, hkeep, hok⟩ := ih n
              refine ⟨hsub.cons_cons _, fun id hid hin => ?_, fun h id hid => ?_⟩
              · exact (List.mem_cons.mp hid).elim (fun h => h ▸ List.mem_cons_self)
                  fun h => List.mem_cons_of_mem _ (hkeep id h hin)
              · exact (List.mem_cons.mp hid).elim (fun h => h ▸ hmem) (hok h id)
          · next hmem =>
              split
              · exact ⟨.refl _, fun id hid _ => hid, fun h => by cases h⟩
              · obtain ⟨hsub, hkeep, hok⟩ := ih (n + 1)
                refine ⟨hsub.cons _, fun id hid hin => ?_, hok⟩
                exact (List.mem_cons.mp hid).elim (fun h => absurd (h ▸ hin) hmem)
                  fun h => hkeep id h hin

/-- What is added are tracks that were not there, and all of them if no call fails. -/
theorem addMissing_spec (lib : Lib) (existing : List String) (tracks : List Track)
    (senders : List (Option Track)) (n : Nat) :
    ∃ added : List Track, (addMissing lib existing tracks senders n).2.1 =
      senders ++ added.map some ∧ added.Sublist (tracks.filter fun t => t.id ∉ existing) ∧
      ((addMissing lib existing tracks senders n).1 = true →
        added = tracks.filter fun t => t.id ∉ existing) := by
  induction tracks generalizing senders n with
  | nil => exact ⟨[], by simp [addMissing], .refl _, fun _ => rfl⟩
  | cons t tracks ih =>
      simp only [addMissing]
      split
      · next hmem =>
          obtain ⟨added, hsenders, hsub, hok⟩ := ih senders n
          rw [List.filter_cons_of_neg (by simpa using hmem)]
          exact ⟨added, hsenders, hsub, hok⟩
      · next hmem =>
          rw [List.filter_cons_of_pos (by simpa using hmem)]
          split
          · exact ⟨[], by simp, List.nil_sublist _, fun h => by cases h⟩
          · obtain ⟨added, hsenders, hsub, hok⟩ := ih (senders ++ [some t]) (n + 1)
            refine ⟨t :: added, ?_, hsub.cons_cons _, fun h => by rw [hok h]⟩
            rw [hsenders, List.append_assoc]
            rfl

/-- A peer is sent tracks of the room only, and all that do not come from itself. -/
structure Peer.Synced (tracks : List Track) (p : Peer) : Prop where
  isOpen : p.closed = false
  sound : ∀ id ∈ sends p.senders, id ∈ tracks.map Track.id
  complete : ∀ id ∈ tracks.map Track.id, id ∉ p.receives → id ∈ sends p.senders

/-- Nothing is sent to a peer that comes from it. -/
def Peer.NoLoop (p : Peer) : Prop := ∀ id ∈ sends p.senders, id ∉ p.receives

/-- What a synchronisation leaves alone. -/
def Peer.Same (p p' : Peer) : Prop :=
  p'.conn = p.conn ∧ p'.closed = p.closed ∧ p'.receivers = p.receivers

theorem sendOffer_spec (lib : Lib) (p : Peer) (n : Nat) :
    (sendOffer lib p n).2.1.senders = p.senders ∧ p.Same (sendOffer lib p n).2.1 := by
  unfold sendOffer
  split
  · exact ⟨rfl, rfl, rfl, rfl⟩
  split
  · exact ⟨rfl, rfl, rfl, rfl⟩
  split <;> exact ⟨rfl, rfl, rfl, rfl⟩

/-- The senders after both loops: some of the old ones, and tracks of the room that the peer
was not sent and that do not come from it; if no call fails, all of these. -/
theorem syncPeer_senders (lib : Lib) (tracks : List Track) (p : Peer) (n : Nat) :
    let r := syncPeer lib tracks p n
    ∃ (kept : List (Option Track)) (added order : List Track), order.Perm tracks ∧
      r.2.1.senders = kept ++ added.map some ∧ p.Same r.2.1 ∧
      (sends kept).Sublist (sends p.senders) ∧
      added.Sublist (order.filter fun t => t.id ∉ sends p.senders ++ p.receives) ∧
      (r.1 = true → (∀ id ∈ sends kept, id ∈ tracks.map Track.id) ∧
        (∀ id ∈ sends p.senders, id ∈ tracks.map Track.id → id ∈ sends kept) ∧
        added = order.filter fun t => t.id ∉ sends p.senders ++ p.receives) := by
  obtain ⟨hsub, hkeep, hstale⟩ := removeStale_spec lib (tracks.map Track.id) p.senders n
  simp only [syncPeer]
  generalize removeStale lib (tracks.map Track.id) p.senders n = r₁ at hsub hkeep hstale ⊢
  obtain ⟨ok₁, senders₁, n₁⟩ := r₁
  have horder := lib.perm n₁ tracks
  cases ok₁ with
  | false =>
      exact ⟨senders₁, [], lib.order n₁ tracks, horder, by simp, ⟨rfl, rfl, rfl⟩, hsub,
        List.nil_sublist _, fun hr => by cases hr⟩
  | true =>
      obtain ⟨added, hsenders, hadded, hall⟩ :=
        addMissing_spec lib (sends p.senders ++ p.receives) (lib.order n₁ tracks) senders₁ n₁
      simp only [if_true]
      generalize addMissing lib (sends p.senders ++ p.receives) (lib.order n₁ tracks) senders₁ n₁ =
        r₂ at hsenders hall ⊢
      obtain ⟨ok₂, senders₂, n₂⟩ := r₂
      dsimp only at hsenders
      subst hsenders
      cases ok₂ with
      | false =>
          exact ⟨senders₁, added, lib.order n₁ tracks, horder, rfl, ⟨rfl, rfl, rfl⟩, hsub, hadded,
            fun hr => by cases hr⟩
      | true =>
          obtain ⟨hsame, hoffer⟩ :=
            sendOffer_spec lib { p with senders := senders₁ ++ added.map some } n₂
          simp only [if_true]
          exact ⟨senders₁, added, lib.order n₁ tracks, horder, hsame, hoffer, hsub, hadded,
            fun _ => ⟨hstale rfl, hkeep, hall rfl⟩⟩

theorem mem_sends_append {senders : List (Option Track)} {added : List Track} {id : String} :
    id ∈ sends (senders ++ added.map some) ↔ id ∈ sends senders ∨ ∃ t ∈ added, t.id = id := by
  rw [sends_append, List.mem_append, List.mem_map]

/-- What is added to the senders comes from the room and not from the peer. -/
theorem added_of_sublist {added order : List Track} {ids : List String} (horder : order.Perm tracks)
    (hadded : added.Sublist (order.filter fun t => t.id ∉ ids ++ p.receives)) {t : Track}
    (ht : t ∈ added) : t ∈ tracks ∧ t.id ∉ ids ∧ t.id ∉ p.receives := by
  obtain ⟨hmem, hnot⟩ := List.mem_filter.mp (hadded.subset ht)
  have hboth : t.id ∉ ids ∧ t.id ∉ p.receives := by simpa [not_or] using hnot
  exact ⟨horder.mem_iff.mp hmem, hboth⟩

/-- If no call fails, the peer is sent what it should be. -/
theorem syncPeer_synced (lib : Lib) (tracks : List Track) (p : Peer) (n : Nat)
    (hclosed : p.closed = false) :
    let r := syncPeer lib tracks p n
    p.Same r.2.1 ∧ (r.1 = true → r.2.1.Synced tracks) := by
  obtain ⟨kept, added, order, horder, hsenders, hsame, -, hadded, hok⟩ :=
    syncPeer_senders lib tracks p n
  refine ⟨hsame, fun hr => ?_⟩
  obtain ⟨hsound, hkeep, hall⟩ := hok hr
  obtain ⟨hconn, hclosed', hrecv⟩ := hsame
  refine ⟨hclosed'.trans hclosed, fun id hid => ?_, fun id hid hnot => ?_⟩
  · rw [hsenders, mem_sends_append] at hid
    rcases hid with hid | ⟨t, ht, rfl⟩
    · exact hsound id hid
    · exact List.mem_map_of_mem (added_of_sublist horder hadded ht).1
  · obtain ⟨t, ht, rfl⟩ := List.mem_map.mp hid
    rw [Peer.receives, hrecv] at hnot
    rw [hsenders, mem_sends_append, hall]
    by_cases hsent : t.id ∈ sends p.senders
    · exact .inl (hkeep _ hsent hid)
    · refine .inr ⟨t, List.mem_filter.mpr ⟨horder.mem_iff.mpr ht, ?_⟩, rfl⟩
      simpa [not_or] using ⟨hsent, hnot⟩

/-- No ID is sent twice afterwards if none was before. -/
theorem syncPeer_once (lib : Lib) (hids : (tracks.map Track.id).Nodup) (p : Peer) (n : Nat)
    (h : (sends p.senders).Nodup) : (sends (syncPeer lib tracks p n).2.1.senders).Nodup := by
  obtain ⟨kept, added, order, horder, hsenders, -, hsub, hadded, -⟩ :=
    syncPeer_senders lib tracks p n
  rw [hsenders, sends_append]
  refine (hsub.nodup h).append ?_ fun id hid hnew => ?_
  · exact ((hadded.trans List.filter_sublist).map Track.id).nodup
      ((horder.map Track.id).nodup_iff.mpr hids)
  · obtain ⟨t, ht, rfl⟩ := List.mem_map.mp hnew
    exact (added_of_sublist horder hadded ht).2.1 (hsub.subset hid)

/-- A synchronisation adds no track that comes from the peer itself. -/
theorem syncPeer_noLoop (lib : Lib) (tracks : List Track) (p : Peer) (n : Nat) (h : p.NoLoop) :
    (syncPeer lib tracks p n).2.1.NoLoop := by
  obtain ⟨kept, added, order, horder, hsenders, ⟨-, -, hrecv⟩, hsub, hadded, -⟩ :=
    syncPeer_senders lib tracks p n
  intro id hid
  rw [hsenders, mem_sends_append] at hid
  rw [Peer.receives, hrecv]
  rcases hid with hid | ⟨t, ht, rfl⟩
  · exact h id (hsub.subset hid)
  · exact (added_of_sublist horder hadded ht).2.2

/-! ## All connections -/

/-- The connections of a list that are not closed. -/
def openConns (peers : List Peer) : List Nat := (peers.filter fun p => !p.closed).map Peer.conn

/-- An attempt keeps what holds of each connection and is kept for one. -/
theorem attemptSync_forall {Q : Peer → Prop}
    (hQ : ∀ p n, Q p → Q (syncPeer lib tracks p n).2.1) {peers : List Peer}
    (h : ∀ p ∈ peers, Q p) (n : Nat) : ∀ p ∈ (attemptSync lib tracks peers n).2.1, Q p := by
  induction peers generalizing n with
  | nil => exact h
  | cons p peers ih =>
      obtain ⟨hp, hpeers⟩ := List.forall_mem_cons.mp h
      have hp' := hQ p n hp
      simp only [attemptSync]
      split
      · exact hpeers
      generalize syncPeer lib tracks p n = r at hp' ⊢
      obtain ⟨ok, p', n'⟩ := r
      cases ok with
      | false => exact List.forall_mem_cons.mpr ⟨hp', hpeers⟩
      | true => exact List.forall_mem_cons.mpr ⟨hp', ih hpeers n'⟩

/-- So does `signalPeerConnections`. -/
theorem signal_forall {Q : Peer → Prop} (hQ : ∀ p n, Q p → Q (syncPeer lib tracks p n).2.1)
    (attempts : Nat) {peers : List Peer} (h : ∀ p ∈ peers, Q p) (n : Nat) :
    ∀ p ∈ (signalPeerConnections lib tracks attempts peers n).2.1, Q p := by
  induction attempts generalizing peers n with
  | zero => exact h
  | succ attempts ih =>
      have hattempt := attemptSync_forall hQ h n
      simp only [signalPeerConnections]
      generalize attemptSync lib tracks peers n = r at hattempt ⊢
      obtain ⟨again, peers', n'⟩ := r
      cases again with
      | false => exact hattempt
      | true => exact ih hattempt n'

/-- An attempt keeps the connections that are open, and when it goes through all are, and in
line with the room. -/
theorem attemptSync_spec (lib : Lib) (tracks : List Track) (peers : List Peer) (n : Nat) :
    let r := attemptSync lib tracks peers n
    openConns r.2.1 = openConns peers ∧ (r.1 = false → ∀ p ∈ r.2.1, p.Synced tracks) := by
  induction peers generalizing n with
  | nil => exact ⟨rfl, fun _ p hp => absurd hp List.not_mem_nil⟩
  | cons p peers ih =>
      simp only [attemptSync]
      split
      · next hclosed =>
          refine ⟨?_, fun hr => by cases hr⟩
          rw [openConns, openConns, List.filter_cons_of_neg (by simp [hclosed])]
      next hclosed =>
      rw [Bool.not_eq_true] at hclosed
      obtain ⟨⟨hconn, hclosed', -⟩, hsync⟩ := syncPeer_synced lib tracks p n hclosed
      generalize syncPeer lib tracks p n = r at hconn hclosed' hsync ⊢
      obtain ⟨ok, p', n'⟩ := r
      dsimp only at hconn hclosed' hsync
      have hopen : ∀ peers' : List Peer, openConns peers' = openConns peers →
          openConns (p' :: peers') = openConns (p :: peers) := fun peers' heq => by
        rw [hclosed] at hclosed'
        rw [openConns, openConns, List.filter_cons_of_pos (by simp [hclosed']),
          List.filter_cons_of_pos (by simp [hclosed]), List.map_cons, List.map_cons, hconn]
        exact congrArg _ heq
      cases ok with
      | false => exact ⟨hopen _ rfl, fun hr => by cases hr⟩
      | true =>
          obtain ⟨hsame, hdone⟩ := ih n'
          exact ⟨hopen _ hsame, fun hr => List.forall_mem_cons.mpr ⟨hsync rfl, hdone hr⟩⟩

/-- All attempts together keep the open connections, and if they go through every peer
is synchronised. -/
theorem signal_spec (lib : Lib) (tracks : List Track) (attempts : Nat) (peers : List Peer)
    (n : Nat) :
    let r := signalPeerConnections lib tracks attempts peers n
    openConns r.2.1 = openConns peers ∧ (r.1 = true → ∀ p ∈ r.2.1, p.Synced tracks) := by
  induction attempts generalizing peers n with
  | zero => exact ⟨rfl, fun hr => by cases hr⟩
  | succ attempts ih =>
      obtain ⟨hopen, hsync⟩ := attemptSync_spec lib tracks peers n
      simp only [signalPeerConnections]
      generalize attemptSync lib tracks peers n = r at hopen hsync ⊢
      obtain ⟨again, peers', n'⟩ := r
      cases again with
      | false => exact ⟨hopen, fun _ => hsync rfl⟩
      | true =>
          obtain ⟨hopen', hsync'⟩ := ih peers' n'
          exact ⟨hopen'.trans hopen, hsync'⟩

/-! ## A room -/

structure Room where
  peers : List Peer
  /-- the values of `roomTrackLocals[k]` -/
  tracks : List Track

inductive Act where
  /-- a client joins -/
  | join (conn : Nat)
  /-- a connection is closed -/
  | close (i : Nat)
  /-- a track comes from peer `i`, and `addTrack` is called for it -/
  | publish (i : Nat) (t : Track)
  /-- `removeTrack`, which deletes the map of the room -/
  | removeTrack
  | signal (lib : Lib) (attempts n : Nat)

def step (r : Room) : Act → Option Room
  | .join conn => some { r with peers := r.peers ++ [⟨conn, false, [], [none, none], 0⟩] }
  | .close i => r.peers[i]?.map fun p => { r with peers := r.peers.set i { p with closed := true } }
  | .publish i t =>
      r.peers[i]?.map fun p =>
        { peers := r.peers.set i { p with receivers := p.receivers ++ [some t.id] }
          tracks := r.tracks.filter (·.id ≠ t.id) ++ [t] }
  | .removeTrack => some { r with tracks := [] }
  | .signal lib attempts n =>
      some { r with peers := (signalPeerConnections lib r.tracks attempts r.peers n).2.1 }

def room : System Room Act where
  init r := r = ⟨[], []⟩
  step := step

/-- A track that comes from a peer has an ID that the peer is not sent. -/
def Fresh (r : Room) : Act → Prop
  | .publish i t => ∀ p ∈ r.peers[i]?, t.id ∉ sends p.senders
  | _ => True

theorem forall_set {Q : Peer → Prop} {l : List Peer} {i : Nat} (h : ∀ p ∈ l, Q p) (hp : Q p) :
    ∀ q ∈ l.set i p, Q q := fun q hq =>
  (List.mem_or_eq_of_mem_set hq).elim (h q) fun heq => heq ▸ hp

/-- In every room IDs are unique, among the tracks of the room and among those that are sent to
a peer. -/
structure Inv (r : Room) : Prop where
  once : ∀ p ∈ r.peers, (sends p.senders).Nodup
  tracks : (r.tracks.map Track.id).Nodup

/-- One step keeps the IDs unique. -/
theorem inv_step {r r' : Room} {a : Act} (h : Inv r) (hs : room.step r a = some r') : Inv r' := by
  cases a with
  | join conn =>
      cases hs
      refine ⟨fun p hp => ?_, h.tracks⟩
      rcases List.mem_append.mp hp with hp | hp
      · exact h.once p hp
      · cases List.mem_singleton.mp hp
        exact List.nodup_nil
  | close i =>
      obtain ⟨p, hp, rfl⟩ := Option.map_eq_some_iff.mp hs
      have honce : (sends p.senders).Nodup := h.once p (List.mem_of_getElem? hp)
      exact ⟨forall_set h.once honce, h.tracks⟩
  | publish i t =>
      obtain ⟨p, hp, rfl⟩ := Option.map_eq_some_iff.mp hs
      have honce : (sends p.senders).Nodup := h.once p (List.mem_of_getElem? hp)
      refine ⟨forall_set h.once honce, ?_⟩
      simp only [List.map_append, List.map_cons, List.map_nil]
      refine ((List.filter_sublist.map _).nodup h.tracks).append (List.nodup_singleton _) ?_
      refine List.disjoint_singleton.mpr fun hmem => ?_
      obtain ⟨u, hu, heq⟩ := List.mem_map.mp hmem
      exact absurd heq (by simpa using (List.mem_filter.mp hu).2)
  | removeTrack =>
      cases hs
      exact ⟨h.once, List.nodup_nil⟩
  | signal lib attempts n =>
      cases hs
      exact ⟨signal_forall (fun p n => syncPeer_once lib h.tracks p n) attempts h.once n, h.tracks⟩

/-- A peer that publishes only IDs that it is not sent gets nothing back. -/
theorem noLoop_step {r r' : Room} {a : Act} (h : ∀ p ∈ r.peers, p.NoLoop) (hfresh : Fresh r a)
    (hs : room.step r a = some r') : ∀ p ∈ r'.peers, p.NoLoop := by
  cases a with
  | join conn =>
      cases hs
      intro p hp
      rcases List.mem_append.mp hp with hp | hp
      · exact h p hp
      · cases List.mem_singleton.mp hp
        exact fun id hid => absurd hid List.not_mem_nil
  | close i =>
      obtain ⟨p, hp, rfl⟩ := Option.map_eq_some_iff.mp hs
      have hloop : p.NoLoop := h p (List.mem_of_getElem? hp)
      exact forall_set h hloop
  | publish i t =>
      obtain ⟨p, hp, rfl⟩ := Option.map_eq_some_iff.mp hs
      refine forall_set h fun id hid => ?_
      simp only [Peer.receives, List.filterMap_append, List.mem_append, not_or]
      refine ⟨h p (List.mem_of_getElem? hp) id hid, fun hmem => hfresh p hp ?_⟩
      have heq : id = t.id := by simpa using hmem
      exact heq ▸ hid
  | removeTrack =>
      cases hs
      exact h
  | signal lib attempts n =>
      cases hs
      exact signal_forall (syncPeer_noLoop lib r.tracks) attempts h n

/-- **Everything but one's own.**  In every room, whatever calls have failed before, a
`signalPeerConnections` that goes through leaves exactly the connections that are not closed,
in their order; each is sent only track IDs of the room, each once, and all of them that do not
come from it.  Where no peer has published a track under an ID that it was sent, it is sent
none of its own. -/
theorem sync_exact {r : Room} {acts : List Act} (hrun : room.run ⟨[], []⟩ acts = some r)
    {attempts : Nat} {peers : List Peer}
    (hsignal : signalPeerConnections lib r.tracks attempts r.peers n = (true, peers, n')) :
    peers.map Peer.conn = openConns r.peers ∧
      (∀ p ∈ peers, (sends p.senders).Nodup ∧
        (∀ id ∈ sends p.senders, id ∈ r.tracks.map Track.id) ∧
        ∀ id ∈ r.tracks.map Track.id, id ∉ p.receives → id ∈ sends p.senders) ∧
      (room.Meets Fresh ⟨[], []⟩ acts → ∀ p ∈ peers, ∀ id,
        id ∈ sends p.senders ↔ id ∈ r.tracks.map Track.id ∧ id ∉ p.receives) := by
  have hempty : Inv ⟨[], []⟩ := ⟨fun p hp => absurd hp List.not_mem_nil, List.nodup_nil⟩
  have hinv : Inv r := System.invariant_of_run (fun _ _ _ => inv_step) hempty hrun
  have honce := signal_forall (fun p n => syncPeer_once lib hinv.tracks p n) attempts hinv.once n
  obtain ⟨hopen, hsync⟩ := signal_spec lib r.tracks attempts r.peers n
  rw [hsignal] at honce hopen hsync
  have hsync := hsync rfl
  refine ⟨?_, fun p hp => ⟨honce p hp, (hsync p hp).sound, (hsync p hp).complete⟩,
    fun hfresh p hp id => ?_⟩
  · rw [← hopen, openConns, List.filter_eq_self.mpr fun p hp => by simp [(hsync p hp).isOpen]]
  · have hloop : ∀ p ∈ r.peers, p.NoLoop :=
      hfresh.invariant (I := fun r : Room => ∀ p ∈ r.peers, p.NoLoop) (fun _ _ _ => noLoop_step)
        (fun p hp => absurd hp List.not_mem_nil) hrun
    have hloop := signal_forall (syncPeer_noLoop lib r.tracks) attempts hloop n
    rw [hsignal] at hloop
    exact ⟨fun hid => ⟨(hsync p hp).sound id hid, hloop p hp id hid⟩,
      fun hid => (hsync p hp).complete id hid.1 hid.2⟩

/-- A library in which nothing fails and maps keep their order. -/
def Lib.plain : Lib := ⟨fun _ => false, fun _ tracks => tracks, fun _ _ => .refl _⟩

/-- Two clients, one of which publishes a track; the other one is sent it. -/
theorem sync_exact_two :
    ∃ r peers n', room.run ⟨[], []⟩ [.join 7, .join 8, .publish 0 ⟨"cam", 1⟩] = some r ∧
      signalPeerConnections .plain r.tracks 1 r.peers 0 = (true, peers, n') ∧
      peers.map Peer.conn = [7, 8] ∧
      ∀ p ∈ peers, ∀ id, id ∈ sends p.senders ↔ id ∈ ["cam"] ∧ id ∉ p.receives := by
  have hrun : room.run ⟨[], []⟩ [.join 7, .join 8, .publish 0 ⟨"cam", 1⟩] =
      some ⟨[⟨7, false, [], [none, none, some "cam"], 0⟩, ⟨8, false, [], [none, none], 0⟩],
        [⟨"cam", 1⟩]⟩ := rfl
  have hsignal : signalPeerConnections .plain [⟨"cam", 1⟩] 1
      [⟨7, false, [], [none, none, some "cam"], 0⟩, ⟨8, false, [], [none, none], 0⟩] 0 =
      (true, [⟨7, false, [], [none, none, some "cam"], 1⟩,
        ⟨8, false, [some ⟨"cam", 1⟩], [none, none], 1⟩], 7) := by
    decide +kernel
  have hfresh : room.Meets Fresh ⟨[], []⟩ [.join 7, .join 8, .publish 0 ⟨"cam", 1⟩] := by
    refine .cons trivial rfl (.cons trivial rfl ⟨?_, fun _ _ => trivial⟩)
    intro p hp
    cases hp
    exact List.not_mem_nil
  obtain ⟨hconns, -, hpeers⟩ := sync_exact hrun hsignal
  exact ⟨_, _, _, hrun, hsignal, hconns, hpeers hfresh⟩

/-- A track that is replaced under its ID goes on being sent as the old object. -/
example : ((room.run ⟨[], []⟩ [.join 7, .join 8, .publish 0 ⟨"cam", 1⟩, .signal .plain 1 0,
    .publish 0 ⟨"cam", 2⟩, .signal .plain 1 0]).map fun r => (r.peers.map Peer.senders, r.tracks)) =
    some ([[], [some ⟨"cam", 1⟩]], [⟨"cam", 2⟩]) := by
  decide +kernel

/-! ## Offers -/

/-- Nothing fails. -/
def Lib.Works (lib : Lib) : Prop := ∀ n, lib.fails n = false

/-- How many offers each open connection has when all are in line: one more than before, and
one for each closed connection behind it. -/
def offersDue : List Peer → List Nat
  | [] => []
  | p :: peers =>
      if p.closed then offersDue peers
      else (p.offers + 1 + peers.countP (·.closed)) :: offersDue peers

theorem removeStale_works (hlib : lib.Works) (ids : List String)
    (senders : List (Option Track)) (n : Nat) : (removeStale lib ids senders n).1 = true := by
  fun_induction removeStale with
  | case1 n => rfl
  | case2 n senders ok senders' n' heq ih => rw [heq] at ih; exact ih
  | case3 n t senders hmem ok senders' n' heq ih => rw [heq] at ih; exact ih
  | case4 t senders n hmem hfails => simp [hlib _] at hfails
  | case5 t senders n hmem hfails ih => exact ih

theorem addMissing_works (hlib : lib.Works) (existing : List String) (tracks : List Track)
    (senders : List (Option Track)) (n : Nat) :
    (addMissing lib existing tracks senders n).1 = true := by
  fun_induction addMissing with
  | case1 => rfl
  | case2 n t tracks senders hmem ih => exact ih
  | case3 n t tracks senders hmem hfails => simp [hlib _] at hfails
  | case4 n t tracks senders hmem hfails ih => exact ih

/-- A connection that is not closed gets one offer. -/
theorem syncPeer_works (hlib : lib.Works) (tracks : List Track) (p : Peer) (n : Nat) :
    (syncPeer lib tracks p n).1 = true ∧ (syncPeer lib tracks p n).2.1.offers = p.offers + 1 ∧
      (syncPeer lib tracks p n).2.1.closed = p.closed := by
  have hstale := removeStale_works hlib (tracks.map Track.id) p.senders n
  simp only [syncPeer]
  generalize removeStale lib (tracks.map Track.id) p.senders n = r₁ at hstale ⊢
  obtain ⟨ok₁, senders₁, n₁⟩ := r₁
  obtain rfl : ok₁ = true := hstale
  have hadd :=
    addMissing_works hlib (sends p.senders ++ p.receives) (lib.order n₁ tracks) senders₁ n₁
  simp only [if_true]
  generalize addMissing lib (sends p.senders ++ p.receives) (lib.order n₁ tracks) senders₁ n₁ =
    r₂ at hadd ⊢
  obtain ⟨ok₂, senders₂, n₂⟩ := r₂
  obtain rfl : ok₂ = true := hadd
  simp [sendOffer, hlib _]

/-- One attempt: it ends at the first closed connection, which it takes out. -/
theorem attemptSync_works (hlib : lib.Works) (tracks : List Track) (peers : List Peer) (n : Nat) :
    let r := attemptSync lib tracks peers n
    (r.1 = false ∧ peers.countP (·.closed) = 0 ∧ r.2.1.map Peer.offers = offersDue peers) ∨
      (r.1 = true ∧ peers.countP (·.closed) = r.2.1.countP (·.closed) + 1 ∧
        offersDue r.2.1 = offersDue peers) := by
  induction peers generalizing n with
  | nil => exact .inl ⟨rfl, rfl, rfl⟩
  | cons p peers ih =>
      simp only [attemptSync]
      split
      · next hclosed =>
          exact .inr ⟨rfl, by rw [List.countP_cons_of_pos hclosed],
            by rw [offersDue, if_pos hclosed]⟩
      next hclosed =>
      obtain ⟨hok, hoffers, hclosed'⟩ := syncPeer_works hlib tracks p n
      generalize syncPeer lib tracks p n = r at hok hoffers hclosed' ⊢
      obtain ⟨ok, p', n'⟩ := r
      obtain rfl : ok = true := hok
      dsimp only at hoffers hclosed'
      rw [← hclosed'] at hclosed
      have hclosed₀ : ¬p.closed = true := hclosed' ▸ hclosed
      have hrest := ih n'
      simp only [if_true]
      generalize attemptSync lib tracks peers n' = r at hrest ⊢
      obtain ⟨again, peers', n''⟩ := r
      dsimp only at hrest
      simp only [List.countP_cons_of_neg hclosed, List.countP_cons_of_neg hclosed₀, offersDue,
        if_neg hclosed₀, if_neg hclosed, List.map_cons, List.cons.injEq]
      refine hrest.imp ?_ ?_
      · rintro ⟨hagain, hcount, hdue⟩
        exact ⟨hagain, hcount, by omega, hdue⟩
      · rintro ⟨hagain, hcount, hdue⟩
        exact ⟨hagain, hcount, by omega, hdue⟩

/-- **How many offers.**  Where no call fails, `signalPeerConnections` goes through exactly if
fewer connections are closed than it makes attempts, and each open connection has then been
sent one offer, and one more for each closed connection that stood behind it. -/
theorem sync_offers (hlib : lib.Works) (tracks : List Track) (attempts : Nat)
    (peers : List Peer) (n : Nat) :
    let r := signalPeerConnections lib tracks attempts peers n
    (r.1 = true ↔ peers.countP (·.closed) < attempts) ∧
      (r.1 = true → r.2.1.map Peer.offers = offersDue peers) := by
  induction attempts generalizing peers n with
  | zero => simp [signalPeerConnections]
  | succ attempts ih =>
      have hattempt := attemptSync_works hlib tracks peers n
      simp only [signalPeerConnections]
      generalize attemptSync lib tracks peers n = r at hattempt ⊢
      obtain ⟨again, peers', n'⟩ := r
      rcases hattempt with ⟨hagain, hcount, hdue⟩ | ⟨hagain, hcount, hdue⟩
      · obtain rfl : again = false := hagain
        exact ⟨iff_of_true rfl (by omega), fun _ => hdue⟩
      · obtain rfl : again = true := hagain
        obtain ⟨hiff, hoffers⟩ := ih peers' n'
        dsimp only at hcount hdue
        rw [hcount, Nat.add_lt_add_iff_right, ← hdue]
        exact ⟨hiff, hoffers⟩

/-- An open connection before two closed ones gets three offers. -/
theorem sync_offers_three :
    ((signalPeerConnections .plain [] 3 [⟨0, false, [], [], 0⟩, ⟨1, true, [], [], 0⟩,
      ⟨2, true, [], [], 0⟩] 0).2.1).map
      Peer.offers = [3] :=
  (sync_offers (fun _ => rfl) [] 3 _ 0).2 (by decide)

end Linuxyz.Webrtc.Sync
