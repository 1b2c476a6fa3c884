import Linuxyz.Lib.System
import Mathlib.Logic.Function.Basic

/-!
# Linuxyz.Webrtc.Rooms

The rooms of `0xetc/go/webrtc`: `CreatePeers` registers a room and its users,
`RoomSignalHandler` lets a client join the room that its URL path names, after
`roomJoinAuth` has checked the client's first message against the registry.

That message names a room of its own, and `roomJoinAuth` looks the user up in
that one.  Nothing compares the two names, so a user of any room joins every
room.
-/

namespace Linuxyz.Webrtc

structure PeersUserStruct where
  userKey : String
  user : String
deriving DecidableEq, Repr

structure PeersCreate where
  roomName : String
  users : List String
deriving DecidableEq, Repr

structure PeersJoin where
  roomName : String
  user : String
  userKey : String
deriving DecidableEq, Repr

/-- What `roomJoinAuth` gets from the client. -/
inductive Auth where
  /-- `ReadJSON` fails, which ends the process -/
  | unreadable
  /-- nothing arrives in time -/
  | timedOut
  /-- the request's data is not a `PeersJoin` -/
  | malformed (err : String)
  | join (pj : PeersJoin)
deriving DecidableEq, Repr

/-- `ROOMREG` and `roomPeerConnections`, a connection being known by the message
it presented. -/
structure Rooms where
  roomreg : String → Option (List PeersUserStruct)
  roomPeerConnections : String → Option (List Auth)

def Rooms.start : Rooms := ⟨fun _ => none, fun _ => none⟩

/-- `CreatePeers`. -/
def createPeers (s : Rooms) (pc : PeersCreate) : Rooms where
  roomreg := Function.update s.roomreg pc.roomName
    (some (pc.users.foldl (fun reg user => reg ++ [⟨user, user⟩]) []))
  roomPeerConnections := Function.update s.roomPeerConnections pc.roomName (some [])

/-- The user of a `PeersJoin` is in the list with its key. -/
def Listed (users : List PeersUserStruct) (pj : PeersJoin) : Prop :=
  ∃ u ∈ users, u.user = pj.user ∧ u.userKey = pj.userKey

instance decidableListed (users : List PeersUserStruct) (pj : PeersJoin) :
    Decidable (Listed users pj) :=
  inferInstanceAs (Decidable (∃ u ∈ users, u.user = pj.user ∧ u.userKey = pj.userKey))

/-- `roomJoinAuth`: the user, or the text of the error. -/
def roomJoinAuth (roomreg : String → Option (List PeersUserStruct)) : Auth → Except String String
  | .unreadable | .timedOut => .error "read auth: timed out"
  | .malformed err => .error ("read auth: marshal: " ++ err)
  | .join pj =>
      match roomreg pj.roomName with
      | none => .error "failed to get okay: no such room"
      | some users => if Listed users pj then .ok pj.user else .error "no matching user found"

/-- `strings.TrimPrefix`. -/
def trimPrefix (s pre : String) : String :=
  if pre.toList.isPrefixOf s.toList then String.ofList (s.toList.drop pre.length) else s

/-- A signalling connection: what the client chooses, and whether the calls
into the libraries succeed. -/
structure Request where
  path : String
  auth : Auth
  upgrade : Bool
  newPeerConnection : Bool
  addTransceivers : Bool

/-- `RoomSignalHandler` up to the point where the connection is in the list;
`pre` is `PEERS_SIGNAL_PATH`. -/
def roomSignalHandler (pre : String) (s : Rooms) (r : Request) : Option Rooms :=
  if !r.upgrade then some s
  else match s.roomPeerConnections (trimPrefix r.path pre) with
    | none => some s
    | some conns =>
        if r.auth = .unreadable then none
        else match roomJoinAuth s.roomreg r.auth with
          | .error _ => some s
          | .ok _ =>
              if r.newPeerConnection && r.addTransceivers then
                some { s with
                  roomPeerConnections :=
                    Function.update s.roomPeerConnections (trimPrefix r.path pre)
                      (some (conns ++ [r.auth])) }
              else some s

/-- `attemptSync` takes the closed connection `i` of a room off its list. -/
def dropClosed (s : Rooms) (room : String) (i : Nat) : Rooms :=
  { s with
    roomPeerConnections :=
      Function.update s.roomPeerConnections room ((s.roomPeerConnections room).map (·.eraseIdx i)) }

inductive Op where
  | create (pc : PeersCreate)
  | connect (r : Request)
  | closed (room : String) (i : Nat)

def rooms (pre : String) : System Rooms Op where
  init s := s = .start
  step s
    | .create pc => some (createPeers s pc)
    | .connect r => roomSignalHandler pre s r
    | .closed room i => some (dropClosed s room i)

/-- The message names the room of the URL path. -/
def SameRoom (pre : String) : Op → Prop
  | .create _ | .closed _ _ => True
  | .connect r => ∀ pj, r.auth = .join pj → pj.roomName = trimPrefix r.path pre

/-- The message presented a pair that is registered for the room. -/
def Registered (s : Rooms) (room : String) (auth : Auth) : Prop :=
  ∃ pj users, auth = .join pj ∧ s.roomreg room = some users ∧ Listed users pj

/-- Whenever `roomJoinAuth` succeeds, the user is registered for the room that
the message names. -/
theorem listed_of_roomJoinAuth (h : roomJoinAuth roomreg auth = .ok user) :
    ∃ pj users, auth = .join pj ∧ roomreg pj.roomName = some users ∧ Listed users pj := by
  cases auth with
  | unreadable | timedOut | malformed err => cases h
  | join pj =>
      rw [roomJoinAuth] at h
      split at h
      · cases h
      next users hreg =>
        split at h
        next hlisted => exact ⟨pj, users, rfl, hreg, hlisted⟩
        · cases h

/-- Every connection in the list of a room presented a pair registered for that
room. -/
def Authorised (s : Rooms) : Prop :=
  ∀ room conns, s.roomPeerConnections room = some conns → ∀ auth ∈ conns, Registered s room auth

/-- A room that is created has no connections yet. -/
theorem Authorised.createPeers {s : Rooms} (h : Authorised s) (pc : PeersCreate) :
    Authorised (createPeers s pc) := by
  intro room conns hconns auth hauth
  by_cases hroom : room = pc.roomName
  · -- a created room has no connection yet
    subst hroom
    simp only [Webrtc.createPeers, Function.update_self, Option.some.injEq] at hconns
    subst hconns
    cases hauth
  · simp only [Webrtc.createPeers, Function.update_of_ne hroom] at hconns
    obtain ⟨pj, users, hpj, hreg, hlisted⟩ := h room conns hconns auth hauth
    refine ⟨pj, users, hpj, ?_, hlisted⟩
    simp only [Webrtc.createPeers, Function.update_of_ne hroom, hreg]

/-- A connection that names the room of its pair is put into the list of that room. -/
theorem Authorised.roomSignalHandler {s s' : Rooms} (h : Authorised s)
    (hroom : SameRoom pre (.connect r)) (hs : roomSignalHandler pre s r = some s') :
    Authorised s' := by
  rw [Webrtc.roomSignalHandler] at hs
  split at hs
  · cases hs
    exact h
  split at hs
  · cases hs
    exact h
  next conns hconns =>
    split at hs
    · cases hs
    split at hs
    · cases hs
      exact h
    next user hjoin =>
      split at hs
      · cases hs
        intro room conns' hconns' auth hauth
        by_cases hr : room = trimPrefix r.path pre
        · subst hr
          simp only [Function.update_self, Option.some.injEq] at hconns'
          subst hconns'
          rcases List.mem_append.mp hauth with hold | hnew
          · exact h _ conns hconns auth hold
          · obtain ⟨pj, users, hpj, hreg, hlisted⟩ := listed_of_roomJoinAuth hjoin
            rw [hroom pj hpj] at hreg
            exact ⟨pj, users, (List.mem_singleton.mp hnew).trans hpj, hreg, hlisted⟩
        · simp only [Function.update_of_ne hr] at hconns'
          exact h room conns' hconns' auth hauth
      · cases hs
        exact h

/-- To drop a connection adds none. -/
theorem Authorised.dropClosed {s : Rooms} (h : Authorised s) (room : String) (i : Nat) :
    Authorised (dropClosed s room i) := by
  intro room' conns hconns auth hauth
  by_cases hroom : room' = room
  · subst hroom
    simp only [Webrtc.dropClosed, Function.update_self, Option.map_eq_some_iff] at hconns
    obtain ⟨conns', hconns', rfl⟩ := hconns
    exact h room' conns' hconns' auth (List.mem_of_mem_eraseIdx hauth)
  · simp only [Webrtc.dropClosed, Function.update_of_ne hroom] at hconns
    exact h room' conns hconns auth hauth

/-- **Joining a room takes a user of that room**, as long as every client's
message names the room of its URL path. -/
theorem authorised_of_sameRoom {pre : String} {ops : List Op} {s : Rooms}
    (hops : ∀ op ∈ ops, SameRoom pre op) (hrun : (rooms pre).run .start ops = some s) :
    ∀ room conns, s.roomPeerConnections room = some conns →
      ∀ auth ∈ conns, Registered s room auth := by
  have hstep : ∀ s op s', Authorised s → SameRoom pre op → (rooms pre).step s op = some s' →
      Authorised s' := by
    intro s op s' h hop hs
    cases op with
    | create pc => exact Option.some.inj hs ▸ h.createPeers pc
    | connect r => exact h.roomSignalHandler hop hs
    | closed room i => exact Option.some.inj hs ▸ h.dropClosed room i
  have hmeets : (rooms pre).Meets (fun _ op => SameRoom pre op) .start ops :=
    System.meets_of_forall _ hops
  exact hmeets.invariant (I := Authorised) hstep (fun _ _ hconns => by cases hconns) hrun

/-- A client that joins the room its URL names. -/
theorem authorised_of_own_room :
    ∃ s, (rooms "/signal/").run .start
        [.create ⟨"red", ["ann"]⟩, .connect ⟨"/signal/red", .join ⟨"red", "ann", "ann"⟩, true, true,
          true⟩] = some s ∧
      s.roomPeerConnections "red" = some [.join ⟨"red", "ann", "ann"⟩] ∧
      ∀ room conns, s.roomPeerConnections room = some conns →
        ∀ auth ∈ conns, Registered s room auth := by
  have hops : ∀ op ∈ [Op.create ⟨"red", ["ann"]⟩,
      .connect ⟨"/signal/red", .join ⟨"red", "ann", "ann"⟩, true, true, true⟩],
      SameRoom "/signal/" op := by
    intro op hop
    simp only [List.mem_cons, List.not_mem_nil, or_false] at hop
    rcases hop with rfl | rfl
    · trivial
    · rintro pj ⟨⟩
      rfl
  exact ⟨_, rfl, rfl, authorised_of_sameRoom hops rfl⟩

/-- A user of the room red joins the room blue, in which it is not registered. -/
theorem joins_foreign_room :
    ∃ s, (rooms "/signal/").run .start
        [.create ⟨"red", ["ann"]⟩, .create ⟨"blue", ["bob"]⟩,
          .connect ⟨"/signal/blue", .join ⟨"red", "ann", "ann"⟩, true, true, true⟩] = some s ∧
      s.roomPeerConnections "blue" = some [.join ⟨"red", "ann", "ann"⟩] ∧
      ¬ Registered s "blue" (.join ⟨"red", "ann", "ann"⟩) := by
  refine ⟨_, rfl, rfl, ?_⟩
  rintro ⟨pj, users, hpj, hreg, hlisted⟩
  cases hpj
  have husers : some [⟨"bob", "bob"⟩] = some users := hreg
  cases husers
  revert hlisted
  decide

end Linuxyz.Webrtc
