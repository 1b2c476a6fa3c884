import Linuxyz.Lib.System
import Mathlib.Logic.Function.Basic

/-!
# Linuxyz.Webrtc.Tracks

The track registry of `0xetc/go/webrtc`: `roomTrackLocals` maps a room to the
map of its local tracks by track ID.  `addTrack` stores a track in the map of
its room, `removeTrack` deletes the room's whole map, each under `ListLock`: a
removal takes away the tracks of all other publishers of the room as well, and
is right only for the last track of a room.
-/

namespace Linuxyz.Webrtc

/-- A `TrackLocalStaticRTP`: the ID of the remote track it was made for, and the
identity of the object. -/
structure Track where
  id : String
  ref : Nat
deriving DecidableEq, Repr

/-- `roomTrackLocals`; `none` is a room without a map. -/
abbrev TrackMap := String → Option (String → Option Track)

/-- `roomTrackLocals[k][id]`; a missing map reads as an empty one. -/
def TrackMap.get (m : TrackMap) (k id : String) : Option Track := (m k).bind (· id)

/-- `addTrack`. -/
def addTrack (m : TrackMap) (k : String) (t : Track) : TrackMap :=
  Function.update m k (some (Function.update ((m k).getD fun _ => none) t.id (some t)))

/-- `removeTrack`; the track is not looked at. -/
def removeTrack (m : TrackMap) (k : String) (_ : Track) : TrackMap := Function.update m k none

/-- A track is added under its ID. -/
theorem get_addTrack (m : TrackMap) (k : String) (t : Track) (k' id : String) :
    (addTrack m k t).get k' id = if k' = k ∧ id = t.id then some t else m.get k' id := by
  by_cases hk : k' = k
  · subst hk
    rw [TrackMap.get, addTrack, Function.update_self, Option.bind_some, Function.update_apply]
    by_cases hid : id = t.id
    · rw [if_pos hid, if_pos ⟨rfl, hid⟩]
    · rw [if_neg hid, if_neg fun h => hid h.2, TrackMap.get]
      cases m k' <;> rfl
  · rw [if_neg fun h => hk h.1, TrackMap.get, addTrack, Function.update_of_ne hk, TrackMap.get]

theorem get_removeTrack (m : TrackMap) (k : String) (t : Track) (k' id : String) :
    (removeTrack m k t).get k' id = if k' = k then none else m.get k' id := by
  by_cases hk : k' = k
  · rw [if_pos hk, TrackMap.get, removeTrack, hk, Function.update_self, Option.bind_none]
  · rw [if_neg hk, TrackMap.get, removeTrack, Function.update_of_ne hk, TrackMap.get]

/-! ## sequences of calls -/

inductive TrackCall where
  | addTrack (k : String) (t : Track)
  | removeTrack (k : String) (t : Track)
deriving DecidableEq, Repr

/-- The registry after some calls, and the tracks added and not yet removed,
each with its room. -/
structure Tracks where
  roomTrackLocals : TrackMap
  present : List (String × Track)

def Tracks.start : Tracks := ⟨fun _ => none, []⟩

def tracks : System Tracks TrackCall where
  init s := s = .start
  step s
    | .addTrack k t => some ⟨addTrack s.roomTrackLocals k t, s.present ++ [(k, t)]⟩
    | .removeTrack k t => some ⟨removeTrack s.roomTrackLocals k t, s.present.filter (· ≠ (k, t))⟩

/-- An added track has an ID that no track of its room has. -/
def Fresh (s : Tracks) : TrackCall → Prop
  | .addTrack k t => ∀ e ∈ s.present, e.1 = k → e.2.id ≠ t.id
  | .removeTrack _ _ => True

/-- A track is removed while its room has no other. -/
def Alone (s : Tracks) : TrackCall → Prop
  | .addTrack _ _ => True
  | .removeTrack k t => ∀ e ∈ s.present, e.1 = k → e.2 = t

instance decidableFresh (s : Tracks) : (c : TrackCall) → Decidable (Fresh s c)
  | .addTrack k t => inferInstanceAs (Decidable (∀ e ∈ s.present, e.1 = k → e.2.id ≠ t.id))
  | .removeTrack _ _ => .isTrue trivial

instance decidableAlone (s : Tracks) : (c : TrackCall) → Decidable (Alone s c)
  | .addTrack _ _ => .isTrue trivial
  | .removeTrack k t => inferInstanceAs (Decidable (∀ e ∈ s.present, e.1 = k → e.2 = t))

/-- The registry holds exactly the tracks that are present, under their IDs. -/
def Exact (s : Tracks) : Prop :=
  ∀ k id t, s.roomTrackLocals.get k id = some t ↔ (k, t) ∈ s.present ∧ t.id = id

/-- A track under a new ID. -/
theorem Exact.addTrack {s : Tracks} (h : Exact s) (hfresh : Fresh s (.addTrack k t)) :
    Exact ⟨addTrack s.roomTrackLocals k t, s.present ++ [(k, t)]⟩ := by
  intro k' id u
  rw [get_addTrack, List.mem_append, List.mem_singleton, Prod.mk.injEq]
  split
  next hkey =>
    obtain ⟨rfl, rfl⟩ := hkey
    constructor
    · rintro ⟨⟩
      exact ⟨.inr ⟨rfl, rfl⟩, rfl⟩
    · rintro ⟨hmem | ⟨-, rfl⟩, hid⟩
      · exact absurd hid (hfresh _ hmem rfl)
      · rfl
  next hkey =>
    rw [h]
    constructor
    · exact fun hu => ⟨.inl hu.1, hu.2⟩
    · rintro ⟨hmem | ⟨rfl, rfl⟩, hid⟩
      · exact ⟨hmem, hid⟩
      · exact absurd ⟨rfl, hid.symm⟩ hkey

/-- To remove the only track of its room. -/
theorem Exact.removeTrack {s : Tracks} (h : Exact s) (halone : Alone s (.removeTrack k t)) :
    Exact ⟨removeTrack s.roomTrackLocals k t, s.present.filter (· ≠ (k, t))⟩ := by
  intro k' id u
  rw [get_removeTrack, List.mem_filter]
  split
  next hk =>
    subst hk
    constructor
    · rintro ⟨⟩
    · rintro ⟨⟨hmem, hne⟩, -⟩
      have hu : u = t := halone _ hmem rfl
      simp [hu] at hne
  next hk =>
    rw [h]
    simp [hk]

/-- A track that is alone in its room is removed without any other change. -/
theorem Exact.get_removeTrack {s : Tracks} {id : String} (h : Exact s)
    (halone : Alone s (.removeTrack k t)) (hother : k' ≠ k ∨ id ≠ t.id) :
    (Webrtc.removeTrack s.roomTrackLocals k t).get k' id = s.roomTrackLocals.get k' id := by
  rw [Webrtc.get_removeTrack]
  split
  next hk =>
    subst hk
    have hid : id ≠ t.id := hother.resolve_left fun hne => hne rfl
    cases hget : s.roomTrackLocals.get k' id with
    | none => rfl
    | some u =>
        obtain ⟨hmem, rfl⟩ := (h _ _ _).mp hget
        exact absurd (congrArg Track.id (halone _ hmem rfl)) hid
  · rfl

/-- **The registry holds exactly the tracks added and not yet removed**, as long
as a track is removed only while it is alone in its room; such a removal changes
no other entry. -/
theorem tracks_exact_of_alone {cs : List TrackCall} {s : Tracks}
    (hcs : tracks.Meets (fun s c => Fresh s c ∧ Alone s c) .start cs)
    (hrun : tracks.run .start cs = some s) :
    (∀ k id t, s.roomTrackLocals.get k id = some t ↔ (k, t) ∈ s.present ∧ t.id = id) ∧
      ∀ k t, Alone s (.removeTrack k t) → ∀ k' id, (k' ≠ k ∨ id ≠ t.id) →
        (removeTrack s.roomTrackLocals k t).get k' id = s.roomTrackLocals.get k' id := by
  have hstep : ∀ s c s', Exact s → Fresh s c ∧ Alone s c → tracks.step s c = some s' →
      Exact s' := by
    intro s c s' h hc hs
    cases c with
    | addTrack k t => exact Option.some.inj hs ▸ h.addTrack hc.1
    | removeTrack k t => exact Option.some.inj hs ▸ h.removeTrack hc.2
  have hstart : Exact .start := fun k id t => by simp [TrackMap.get, Tracks.start]
  have h := hcs.invariant (I := Exact) hstep hstart hrun
  exact ⟨h, fun k t halone k' id hother => h.get_removeTrack halone hother⟩

/-- Two rooms with one track each, one of which is removed. -/
theorem tracks_exact_of_single_tracks :
    ∃ s, tracks.run .start [.addTrack "red" ⟨"a", 0⟩, .addTrack "blue" ⟨"b", 1⟩,
      .removeTrack "red" ⟨"a", 0⟩] = some s ∧
      (∀ k id t, s.roomTrackLocals.get k id = some t ↔ (k, t) ∈ s.present ∧ t.id = id) ∧
      ∀ k t, Alone s (.removeTrack k t) → ∀ k' id, (k' ≠ k ∨ id ≠ t.id) →
        (removeTrack s.roomTrackLocals k t).get k' id = s.roomTrackLocals.get k' id := by
  have hcs : tracks.Meets (fun s c => Fresh s c ∧ Alone s c) .start
      [.addTrack "red" ⟨"a", 0⟩, .addTrack "blue" ⟨"b", 1⟩, .removeTrack "red" ⟨"a", 0⟩] := by
        decide
  exact ⟨_, rfl, tracks_exact_of_alone hcs rfl⟩

/-- Two publishers in one room: the first leaves, and the track of the second is
gone as well. -/
theorem removeTrack_removes_others :
    ∃ s, tracks.run .start [.addTrack "red" ⟨"a", 0⟩, .addTrack "red" ⟨"b", 1⟩,
      .removeTrack "red" ⟨"a", 0⟩] = some s ∧
      tracks.Meets Fresh .start [.addTrack "red" ⟨"a", 0⟩, .addTrack "red" ⟨"b", 1⟩,
        .removeTrack "red" ⟨"a", 0⟩] ∧
      s.present = [("red", ⟨"b", 1⟩)] ∧ s.roomTrackLocals.get "red" "b" = none :=
  ⟨_, rfl, by decide, by decide, by decide⟩

end Linuxyz.Webrtc
