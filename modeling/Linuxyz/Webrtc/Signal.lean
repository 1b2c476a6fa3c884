/-!
# Linuxyz.Webrtc.Signal

The loop of `RoomSignalHandler` over the messages of a client that has joined:
each is decoded, and its command says whether its data is an ICE candidate, a
session description or a chat message for the room.

All messages are decoded into one `SIGNAL_INFO`.  `json.Unmarshal` leaves fields
alone that a message does not have, and `chat` puts what it broadcasts into the
same struct and sends all of it, so a message without a command or without data acts
with those of an earlier one, and a chat message without a status is sent with an
earlier one's.  What is decoded into is the pointer: `null` makes it `nil`, and the next
statement goes through it.
-/

namespace Linuxyz.Webrtc

/-! ## Decoding -/

/-- A JSON value; an object with its members in the order they stand. -/
inductive Json where
  | null
  | bool (b : Bool)
  | num (literal : String)
  | str (s : String)
  | arr (elems : List Json)
  | obj (members : List (String × Json))

structure SignalInfo where
  command : String
  status : String
  data : String
deriving DecidableEq, Repr

def SignalInfo.zero : SignalInfo := ⟨"", "", ""⟩

inductive Field where
  | command
  | status
  | data
deriving DecidableEq, Repr

/-- Case folding of a member's name; of the runes outside ASCII only the long s
and the Kelvin sign fold to a letter. -/
def foldRune (c : Char) : Char :=
  if c = '\u017f' then 's' else if c = '\u212a' then 'k' else c.toLower

/-- The field that a member is for. -/
def Field.ofKey (key : String) : Option Field :=
  let folded := key.toList.map foldRune
  if folded = "command".toList then some .command
  else if folded = "status".toList then some .status
  else if folded = "data".toList then some .data
  else none

def SignalInfo.get (m : SignalInfo) : Field → String
  | .command => m.command
  | .status => m.status
  | .data => m.data

def SignalInfo.set (m : SignalInfo) (s : String) : Field → SignalInfo
  | .command => { m with command := s }
  | .status => { m with status := s }
  | .data => { m with data := s }

/-- Decoding of an object's members into `m`: `null` leaves a string alone and
another value of the wrong type is an error. -/
def decodeMembers (m : SignalInfo) : List (String × Json) → Option SignalInfo
  | [] => some m
  | (key, value) :: rest =>
      match Field.ofKey key, value with
      | none, _ | some _, .null => decodeMembers m rest
      | some f, .str s => decodeMembers (m.set s f) rest
      | some _, _ => none

/-- `json.Unmarshal(raw, &message)` with `message` pointing to `m`: `none` is an
error, `some none` a `nil` pointer. -/
def unmarshal (m : SignalInfo) : Json → Option (Option SignalInfo)
  | .null => some none
  | .obj members => (decodeMembers m members).map some
  | .bool _ | .num _ | .str _ | .arr _ => none

/-! ## The loop -/

/-- `html.EscapeString` -/
def escapeString (s : String) : String :=
  String.join (s.toList.map fun c =>
    match c with
    | '&' => "&amp;"
    | '\x27' => "&#39;"
    | '<' => "&lt;"
    | '>' => "&gt;"
    | '\x22' => "&#34;"
    | c => c.toString)

/-- `Decode` into the two types it is used with, `none` for a panic, and
`json.Marshal` of a `ChatMessage`. -/
structure Codec (C A : Type) where
  candidate : String → Option C
  answer : String → Option A
  marshal : (user message : String) → String

/-- What the loop does with a message. -/
inductive Action (C A : Type) where
  /-- the handler returns -/
  | stopped
  | candidate (decoded : Option C)
  | answer (decoded : Option A)
  /-- the struct is broadcast, all three fields of it -/
  | chat (message : SignalInfo)
  /-- no case for the command -/
  | other (command : String)
deriving DecidableEq, Repr

/-- What `ReadMessage` returns. -/
inductive Incoming where
  | failed
  | malformed
  | value (j : Json)

/-- A message, and whether the peer connection accepts the candidate or the
description in it. -/
structure Received where
  raw : Incoming
  accepted : Bool

variable {C A : Type}

/-- The `switch`, with what it leaves in the struct. -/
def dispatch (codec : Codec C A) (user : String) (m : SignalInfo) : SignalInfo × Action C A :=
  if m.command = "candidate" then (m, .candidate (codec.candidate m.data))
  else if m.command = "answer" then (m, .answer (codec.answer m.data))
  else if m.command = "chat" then
    let message := { m with data := codec.marshal user (escapeString m.data) }
    (message, .chat message)
  else (m, .other m.command)

/-- One turn of the loop; `none` when it goes through a `nil` message. -/
def turn (codec : Codec C A) (user : String) (m : SignalInfo) :
    Incoming → Option (SignalInfo × Action C A)
  | .failed | .malformed => some (m, .stopped)
  | .value j =>
      match unmarshal m j with
      | none => some (m, .stopped)
      | some none => none
      | some (some m') => some (dispatch codec user m')

/-- Whether the loop goes on to the next message: not after an error, after a
panic of `Decode`, or when the peer connection rejects what was decoded. -/
def Action.goesOn (accepted : Bool) : Action C A → Bool
  | .stopped | .candidate none | .answer none => false
  | .candidate (some _) | .answer (some _) => accepted
  | .chat _ | .other _ => true

/-- The loop of `RoomSignalHandler`: its actions for the messages that arrive. -/
def signalLoop (codec : Codec C A) (user : String) (m : SignalInfo) :
    List Received → Option (List (Action C A))
  | [] => some []
  | r :: rs =>
      match turn codec user m r.raw with
      | none => none
      | some (m', action) =>
          if action.goesOn r.accepted then (signalLoop codec user m' rs).map (action :: ·)
          else some [action]

/-! ## Independence -/

/-- The string that a member has for a field. -/
def stringFor (f : Field) : String × Json → Option String
  | (key, .str s) => if Field.ofKey key = some f then some s else none
  | (_, _) => none

/-- The last string that an object has for a field. -/
def lastString (f : Field) : List (String × Json) → Option String
  | [] => none
  | member :: rest => (lastString f rest).or (stringFor f member)

/-- The commands whose case reads the data. -/
def usesData (command : String) : Prop :=
  command = "candidate" ∨ command = "answer" ∨ command = "chat"

/-- A message that is not refused has a command, data if the command uses it, and a status
if it is broadcast. -/
def Complete : Incoming → Prop
  | .failed | .malformed => True
  | .value .null => False
  | .value (.obj members) =>
      decodeMembers .zero members ≠ none →
        ∃ command, lastString .command members = some command ∧
          (usesData command → lastString .data members ≠ none) ∧
          (command = "chat" → lastString .status members ≠ none)
  | .value _ => True

/-- The action for a message by itself. -/
def actionOf (codec : Codec C A) (user : String) (raw : Incoming) : Action C A :=
  match turn codec user .zero raw with
  | none => .stopped
  | some (_, action) => action

/-- The actions for messages that are taken one by one, until the loop ends. -/
def oneByOne (action : Incoming → Action C A) : List Received → List (Action C A)
  | [] => []
  | r :: rs => action r.raw :: if (action r.raw).goesOn r.accepted then oneByOne action rs else []

theorem SignalInfo.get_set (m : SignalInfo) (s : String) (f g : Field) :
    (m.set s f).get g = if f = g then s else m.get g := by
  cases f <;> cases g <;> rfl

/-- Whether an object is refused does not depend on the struct. -/
theorem decodeMembers_isSome (m m₀ : SignalInfo) (members : List (String × Json)) :
    (decodeMembers m members).isSome = (decodeMembers m₀ members).isSome := by
  induction members generalizing m m₀ with
  | nil => rfl
  | cons member rest ih =>
      obtain ⟨key, value⟩ := member
      cases hkey : Field.ofKey key with
      | none => simp only [decodeMembers, hkey, ih m m₀]
      | some f =>
          cases value with
          | null => simp only [decodeMembers, hkey, ih m m₀]
          | str s => simp only [decodeMembers, hkey, ih (m.set s f) (m₀.set s f)]
          | bool _ | num _ | arr _ | obj _ => simp only [decodeMembers, hkey]

/-- A field is as the object's last string for it says, and else as it was. -/
theorem get_of_decodeMembers {m m' : SignalInfo} {members : List (String × Json)}
    (h : decodeMembers m members = some m') (f : Field) :
    m'.get f = (lastString f members).getD (m.get f) := by
  induction members generalizing m with
  | nil =>
      cases h
      rfl
  | cons member rest ih =>
      obtain ⟨key, value⟩ := member
      rw [lastString, Option.getD_or]
      cases hkey : Field.ofKey key with
      | none =>
          simp only [decodeMembers, hkey] at h
          have hnone : stringFor f (key, value) = none := by cases value <;> simp [stringFor, hkey]
          rw [ih h, hnone, Option.getD_none]
      | some g =>
          cases value with
          | null =>
              simp only [decodeMembers, hkey] at h
              rw [ih h, stringFor, Option.getD_none]
              nofun
          | str s =>
              simp only [decodeMembers, hkey] at h
              rw [ih h, SignalInfo.get_set, stringFor, hkey]
              by_cases hg : g = f
              · rw [if_pos hg, if_pos (congrArg some hg), Option.getD_some]
              · rw [if_neg hg, if_neg (mt Option.some.inj hg), Option.getD_none]
          | bool _ | num _ | arr _ | obj _ => simp [decodeMembers, hkey] at h

/-- The `switch` looks at the command, at the data where a case uses it, and at the status
of what it broadcasts. -/
theorem dispatch_congr (codec : Codec C A) (user : String) {m m₀ : SignalInfo}
    (hcommand : m.command = m₀.command) (hdata : usesData m.command → m.data = m₀.data)
    (hstatus : m.command = "chat" → m.status = m₀.status) :
    (dispatch codec user m).2 = (dispatch codec user m₀).2 := by
  by_cases hused : usesData m.command
  · simp only [dispatch, ← hcommand, ← hdata hused]
    by_cases hchat : m.command = "chat"
    · rw [← hstatus hchat]
      grind
    · grind
  · obtain ⟨hcandidate, hanswer, hchat⟩ :
        m.command ≠ "candidate" ∧ m.command ≠ "answer" ∧ m.command ≠ "chat" := by
      simpa [usesData] using hused
    grind [dispatch]

/-- A complete message gives the action of its own fields, whatever was decoded
before. -/
theorem turn_of_complete (codec : Codec C A) (user : String) (m : SignalInfo) {raw : Incoming}
    (h : Complete raw) : ∃ m', turn codec user m raw = some (m', actionOf codec user raw) := by
  match raw with
  | .failed | .malformed => exact ⟨m, rfl⟩
  | .value .null => exact h.elim
  | .value (.bool _) | .value (.num _) | .value (.str _) | .value (.arr _) => exact ⟨m, rfl⟩
  | .value (.obj members) =>
      have hsome := decodeMembers_isSome m .zero members
      cases hzero : decodeMembers .zero members with
      | none =>
          rw [hzero, Option.isSome_none, Option.isSome_eq_false_iff,
            Option.isNone_iff_eq_none] at hsome
          exact ⟨m, by simp [turn, actionOf, unmarshal, hsome, hzero]⟩
      | some m₀ =>
          rw [hzero, Option.isSome_some, Option.isSome_iff_exists] at hsome
          obtain ⟨m', hm'⟩ := hsome
          obtain ⟨command, hcommand, hdata, hstatus⟩ := h (by simp [hzero])
          have hget : ∀ f s, lastString f members = some s → m'.get f = s ∧
              m₀.get f = s := fun f s hs => by
            rw [get_of_decodeMembers hm', get_of_decodeMembers hzero, hs]
            exact ⟨rfl, rfl⟩
          obtain ⟨hm'command, hm₀command⟩ := hget .command command hcommand
          have hfield : ∀ f, lastString f members ≠ none → m'.get f = m₀.get f := fun f hne => by
            obtain ⟨s, hs⟩ := Option.ne_none_iff_exists'.mp hne
            obtain ⟨hm's, hm₀s⟩ := hget f s hs
            exact hm's.trans hm₀s.symm
          have hcongr : (dispatch codec user m').2 = (dispatch codec user m₀).2 :=
            dispatch_congr codec user (hm'command.trans hm₀command.symm)
              (fun hused => hfield .data (hdata (hm'command ▸ hused)))
              fun hchat => hfield .status (hstatus (hm'command ▸ hchat))
          refine ⟨(dispatch codec user m').1, ?_⟩
          simp only [turn, actionOf, unmarshal, hm', hzero, Option.map_some, ← hcongr]

/-- A loop over complete messages is the loop over them one by one. -/
theorem signalLoop_eq (codec : Codec C A) (user : String) (m : SignalInfo) {rs : List Received}
    (h : ∀ r ∈ rs, Complete r.raw) :
    signalLoop codec user m rs = some (oneByOne (actionOf codec user) rs) := by
  induction rs generalizing m with
  | nil => rfl
  | cons r rs ih =>
      obtain ⟨m', hturn⟩ := turn_of_complete codec user m (h r (by simp))
      have hrest := ih m' fun r' hr' => h r' (List.mem_cons_of_mem _ hr')
      simp only [signalLoop, hturn, oneByOne, hrest, Option.map_some]
      split <;> rfl

/-- **Messages act by themselves.**  When every message that is not refused has a
command, data where its command uses it and a status where it is broadcast, and none is
`null`, the loop never goes through a `nil` message and does with each message what it
does with that message alone. -/
theorem signals_independent_of_complete (codec : Codec C A) (user : String) {rs : List Received}
    (h : ∀ r ∈ rs, Complete r.raw) :
    signalLoop codec user .zero rs = some (oneByOne (actionOf codec user) rs) :=
  signalLoop_eq codec user .zero h

/-- A chat message, a candidate, and what ends the loop. -/
def chatAndCandidate : List Received :=
  [⟨.value (.obj [("command", .str "chat"), ("status", .str ""), ("data", .str "<hi>")]), true⟩,
   ⟨.value (.obj [("Command", .str "candidate"), ("data", .str "c"), ("id", .num "1")]), true⟩,
   ⟨.value (.arr []), true⟩]

theorem signals_independent_chat :
    signalLoop ⟨some, some, fun user message => user ++ message⟩ "ann" .zero chatAndCandidate =
      some (oneByOne (actionOf ⟨some, some, fun user message => user ++ message⟩ "ann")
        chatAndCandidate) := by
  refine signals_independent_of_complete _ _ ?_
  simp only [chatAndCandidate, List.forall_mem_cons]
  exact ⟨fun _ =>
    ⟨"chat", by decide +kernel, fun _ => by decide +kernel, fun _ => by decide +kernel⟩, fun _ =>
      ⟨"candidate", by decide +kernel, fun _ => by decide +kernel, fun h => by simp at h⟩,
    trivial, List.forall_mem_nil _⟩

/-- A message without a command is a chat message after one, and nothing by itself; a chat
message without a status goes out with that of an earlier message; and `null` is gone
through. -/
theorem signals_not_independent :
    signalLoop (C := String) (A := String) ⟨some, some, fun user message => user ++ message⟩ "ann"
        .zero
        [⟨.value (.obj [("command", .str "chat"), ("data", .str "hi")]), true⟩,
         ⟨.value (.obj [("data", .str "ho")]), true⟩] =
        some [.chat ⟨"chat", "", "annhi"⟩, .chat ⟨"chat", "", "annho"⟩] ∧
      signalLoop (C := String) (A := String) ⟨some, some, fun user message => user ++ message⟩ "ann"
        .zero [⟨.value (.obj [("data", .str "ho")]), true⟩] = some [.other ""] ∧
      signalLoop (C := String) (A := String) ⟨some, some, fun user message => user ++ message⟩ "ann"
        .zero
        [⟨.value (.obj [("command", .str "noop"), ("status", .str "LEAK")]), true⟩,
         ⟨.value (.obj [("command", .str "chat"), ("data", .str "hi")]), true⟩] =
        some [.other "noop", .chat ⟨"chat", "LEAK", "annhi"⟩] ∧
      signalLoop (C := String) (A := String) ⟨some, some, fun user message => user ++ message⟩ "ann"
        .zero [⟨.value .null, true⟩] = none := by
  decide +kernel

end Linuxyz.Webrtc
