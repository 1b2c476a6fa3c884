import Linuxyz.Lib.System

/-!
# Linuxyz.Grpc.Chat

The chat service of `0xetc/go/grpc`: `SayHello` hands out a name, `TalkToMe`
streams the words to whoever was given a name and keeps them as history, and
`WhatDidYouSay` returns three entries of the history.

The handlers share global counters.  `TalkToMe` resets `loop_idx` when it is done
but never `word_idx`, so a second stream starts behind the last word; and
`WhatDidYouSay` checks the length of the history but not its index.  An index out
of range is a panic that ends the server.
-/

namespace Linuxyz.Grpc

structure TalkContent where
  index : Int64
  content : String
deriving DecidableEq, Repr

def words : List String := ["hello", "my", "name", "is", "test", "program"]

/-- The word list as it is streamed. -/
def talk : List TalkContent := words.mapIdx fun i word => ⟨Int64.ofNat i, word⟩

/-- The globals of the server. -/
structure Server where
  allowedNames : List String
  userIdx : Int64
  loopIdx : Nat
  wordIdx : Nat
  history : List TalkContent

inductive Call where
  | sayHello (name : String)
  | talkToMe (message : String)
  | whatDidYouSay (index : Int64)
deriving DecidableEq, Repr

/-- What a call comes back with; a stream is what was handed to `Send`, whose
failures are only logged. -/
inductive Reply where
  | hello (message : String)
  | stream (contents : List TalkContent)
  | history (entries : List TalkContent)
  | error (text : String)
deriving DecidableEq, Repr

/-! ## The handlers -/

def sayHello (s : Server) (name : String) : Server × Reply :=
  let allowing := name ++ "-" ++ toString s.userIdx.toInt
  ({ s with userIdx := s.userIdx + 1, allowedNames := s.allowedNames ++ [allowing] },
    .hello allowing)

/-- The loop of `TalkToMe` with `n` turns to go until `loop_idx > max_idx`. -/
def talkLoop : Nat → Server → Option (Server × List TalkContent)
  | 0, s => some ({ s with loopIdx := 0 }, [])
  | n + 1, s =>
      match words[s.wordIdx]? with
      | none => none
      | some word =>
          let tc : TalkContent := ⟨Int64.ofNat s.wordIdx, word⟩
          (talkLoop n { s with
            history := s.history ++ [tc], loopIdx := s.loopIdx + 1, wordIdx := s.wordIdx + 1 }).map
            fun (s', tcs) => (s', tc :: tcs)

def talkToMe (s : Server) (message : String) : Option (Server × Reply) :=
  if s.allowedNames = [] then some (s, .error "no allowed user")
  else if message ∈ s.allowedNames then
    (talkLoop (words.length - s.loopIdx) s).map fun (s', tcs) => (s', .stream tcs)
  else some (s, .error "failed to retrieve user")

/-- `history.History[i]` -/
def entry (history : List TalkContent) (i : Int64) : Option TalkContent :=
  if 0 ≤ i.toInt then history[i.toInt.toNat]? else none

/-- The loop of `WhatDidYouSay` over the steps back. -/
def lookBack (history : List TalkContent) (idxFrom : Int64) : List Int64 → Option (List TalkContent)
  | [] => some []
  | i :: is => (entry history (idxFrom - i)).bind fun el =>
      (lookBack history idxFrom is).map (el :: ·)

def whatDidYouSay (s : Server) (index : Int64) : Option Reply :=
  if s.history.length < 3 then some (.error "not enough has been said")
  else (lookBack s.history index [0, 1, 2]).map .history

def handle (s : Server) : Call → Option (Server × Reply)
  | .sayHello name => some (sayHello s name)
  | .talkToMe message => talkToMe s message
  | .whatDidYouSay index => (whatDidYouSay s index).map fun r => (s, r)

/-- The server with the replies it has given. -/
structure Session where
  server : Server
  replies : List Reply

def Session.start : Session := ⟨⟨[], 0, 0, 0, []⟩, []⟩

def chat : System Session Call where
  init s := s = .start
  step s c := (handle s.server c).map fun (server, r) => ⟨server, s.replies ++ [r]⟩

/-- The words are streamed from the first one, and an entry of the history is
asked for together with two before it. -/
def Allowed (s : Session) : Call → Prop
  | .sayHello _ => True
  | .talkToMe message => message ∈ s.server.allowedNames → s.server.wordIdx = 0
  | .whatDidYouSay index =>
      3 ≤ s.server.history.length → 2 ≤ index.toInt ∧ index.toInt < s.server.history.length

instance decidableAllowed (s : Session) : (c : Call) → Decidable (Allowed s c)
  | .sayHello _ => .isTrue trivial
  | .talkToMe message =>
      inferInstanceAs (Decidable (message ∈ s.server.allowedNames → s.server.wordIdx = 0))
  | .whatDidYouSay index =>
      inferInstanceAs
        (Decidable (3 ≤ s.server.history.length → 2 ≤ index.toInt ∧
          index.toInt < s.server.history.length))

/-- What a call is to come back with and to leave as history. -/
def Answers (s : Session) : Call → Reply → List TalkContent → Prop
  | .sayHello _, r, history => (∃ message, r = .hello message) ∧ history = s.server.history
  | .talkToMe message, r, history =>
      (.hello message ∈ s.replies → r = .stream talk ∧ history = s.server.history ++ talk) ∧
        (.hello message ∉ s.replies → (∃ text, r = .error text) ∧ history = s.server.history)
  | .whatDidYouSay index, r, history =>
      history = s.server.history ∧
        ((∃ text, r = .error text) ∨
          ∃ (i : Nat) (el₀ el₁ el₂ : TalkContent), index.toInt = i + 2 ∧
            history[i + 2]? = some el₀ ∧
            history[i + 1]? = some el₁ ∧ history[i]? = some el₂ ∧ r = .history [el₀, el₁, el₂])

/-! ## One call -/

theorem talk_getElem? {i : Nat} {word : String} (h : words[i]? = some word) :
    talk[i]? = some ⟨Int64.ofNat i, word⟩ := by
  rw [talk, List.getElem?_mapIdx, h, Option.map_some]

/-- A loop that has as many turns to go as there are words left streams them. -/
theorem talkLoop_spec {n : Nat} {s : Server} (h : s.wordIdx + n = words.length) :
    talkLoop n s = some
      ({ s with
        loopIdx := 0, wordIdx := words.length, history := s.history ++ talk.drop s.wordIdx },
        talk.drop s.wordIdx) := by
  induction n generalizing s with
  | zero =>
      have hall : talk.drop s.wordIdx = [] :=
        List.drop_eq_nil_of_le (by rw [talk, List.length_mapIdx]; omega)
      rw [talkLoop, hall, List.append_nil, ← h, Nat.add_zero]
  | succ n ih =>
      have hlt : s.wordIdx < words.length := by omega
      have hword := List.getElem?_eq_getElem hlt
      have hdrop := List.drop_eq_getElem?_toList_append (l := talk) (i := s.wordIdx)
      rw [talk_getElem? hword, Option.toList_some] at hdrop
      have hrest := ih (s := { s with
        history := s.history ++ [⟨Int64.ofNat s.wordIdx, words[s.wordIdx]⟩],
        loopIdx := s.loopIdx + 1, wordIdx := s.wordIdx + 1 }) (by simp only; omega)
      simp only [talkLoop, hword, hrest, Option.map_some]
      rw [hdrop, List.append_assoc]
      rfl

/-- A name that is allowed is told the whole talk when nothing was told before. -/
theorem talkToMe_given {s : Server} {message : String} (hmem : message ∈ s.allowedNames)
    (hloop : s.loopIdx = 0) (hword : s.wordIdx = 0) :
    talkToMe s message = some
      ({ s with loopIdx := 0, wordIdx := words.length, history := s.history ++ talk },
        .stream talk) := by
  have hspec := talkLoop_spec (n := words.length) (s := s) (by rw [hword, Nat.zero_add])
  rw [hword, List.drop_zero] at hspec
  rw [talkToMe, if_neg (List.ne_nil_of_mem hmem), if_pos hmem, hloop, Nat.sub_zero, hspec,
    Option.map_some]

theorem toInt_sub_of_le {i d : Int64} (hd : 0 ≤ d.toInt) (h : d.toInt ≤ i.toInt) :
    (i - d).toInt = i.toInt - d.toInt := by
  have hi := i.toInt_lt
  rw [Int64.toInt_sub]
  exact Int.bmod_eq_of_le (by omega) (by omega)

/-- An entry that is in the history. -/
theorem entry_sub (history : List TalkContent) {i d : Int64} {n : Nat} (hd : 0 ≤ d.toInt)
    (h : i.toInt = n + d.toInt) (hlt : n < history.length) :
    entry history (i - d) = some history[n] := by
  have htarget : (i - d).toInt = n := by
    rw [toInt_sub_of_le hd (by omega)]
    omega
  rw [entry, htarget, if_pos (by omega), Int.toNat_natCast, List.getElem?_eq_getElem hlt]

theorem whatDidYouSay_spec {s : Server} {index : Int64} (hlen : 3 ≤ s.history.length) {i : Nat}
    (hi : index.toInt = i + 2) (hlt : i + 2 < s.history.length) :
    whatDidYouSay s index = some (.history [s.history[i + 2], s.history[i + 1], s.history[i]]) := by
  have h₀ := entry_sub s.history (d := 0) (n := i + 2) (by decide) (by rw [hi]; rfl) hlt
  have h₁ := entry_sub s.history (d := 1) (n := i + 1) (by decide) (by rw [hi]; rfl) (by omega)
  have h₂ := entry_sub s.history (d := 2) (n := i) (by decide) (by rw [hi]; rfl) (by omega)
  simp only [whatDidYouSay, if_neg (Nat.not_lt.mpr hlen), lookBack, h₀, h₁, h₂, Option.bind_some,
    Option.map_some]

/-! ## Whole sessions -/

/-- No stream is left half way, and the allowed names are those `SayHello` gave. -/
structure Settled (s : Session) : Prop where
  loopIdx : s.server.loopIdx = 0
  names : ∀ name, name ∈ s.server.allowedNames ↔ .hello name ∈ s.replies

theorem settled_start : Settled .start := ⟨rfl, fun _ => by simp [Session.start]⟩

/-- Only `SayHello` gives a name. -/
theorem Settled.append {s : Session} (h : Settled s) {server : Server} {r : Reply}
    (hloop : server.loopIdx = 0) (hnames : server.allowedNames = s.server.allowedNames)
    (hr : ∀ name, r ≠ .hello name) : Settled ⟨server, s.replies ++ [r]⟩ := by
  refine ⟨hloop, fun name => ?_⟩
  rw [hnames, h.names, List.mem_append, List.mem_singleton]
  exact ⟨.inl, fun hor => hor.resolve_right fun heq => hr name heq.symm⟩

/-- A call of `TalkToMe` that is allowed is answered and leaves the server settled. -/
theorem Settled.talkToMe {s : Session} (h : Settled s) {message : String}
    (hallowed : Allowed s (.talkToMe message)) :
    ∃ server r, talkToMe s.server message = some (server, r) ∧
      Answers s (.talkToMe message) r server.history ∧ Settled ⟨server, s.replies ++ [r]⟩ := by
  by_cases hmem : message ∈ s.server.allowedNames
  · refine ⟨_, _, talkToMe_given hmem h.loopIdx (hallowed hmem), ?_, h.append rfl rfl nofun⟩
    exact ⟨fun _ => ⟨rfl, rfl⟩, fun hnot => absurd ((h.names message).mp hmem) hnot⟩
  · have hanswers :
        ∀ text, Answers s (.talkToMe message) (.error text) s.server.history := fun text =>
      ⟨fun hgiven => absurd ((h.names message).mpr hgiven) hmem, fun _ => ⟨⟨text, rfl⟩, rfl⟩⟩
    by_cases hempty : s.server.allowedNames = []
    · exact ⟨_, _, if_pos hempty, hanswers _, h.append h.loopIdx rfl nofun⟩
    · exact ⟨_, _, by rw [Grpc.talkToMe, if_neg hempty, if_neg hmem], hanswers _,
        h.append h.loopIdx rfl nofun⟩

/-- A call of `WhatDidYouSay` that is allowed is answered and leaves the server
settled. -/
theorem Settled.whatDidYouSay {s : Session} (h : Settled s) {index : Int64}
    (hallowed : Allowed s (.whatDidYouSay index)) :
    ∃ r, whatDidYouSay s.server index = some r ∧
      Answers s (.whatDidYouSay index) r s.server.history ∧
      Settled ⟨s.server, s.replies ++ [r]⟩ := by
  by_cases hlen : s.server.history.length < 3
  · exact ⟨_, if_pos hlen, ⟨rfl, .inl ⟨_, rfl⟩⟩, h.append h.loopIdx rfl nofun⟩
  · obtain ⟨hge, hlt⟩ := hallowed (Nat.not_lt.mp hlen)
    obtain ⟨i, hi⟩ : ∃ i : Nat, index.toInt = i + 2 := ⟨(index.toInt - 2).toNat, by omega⟩
    have hin : i + 2 < s.server.history.length := by omega
    refine ⟨_, whatDidYouSay_spec (Nat.not_lt.mp hlen) hi hin,
      ⟨rfl, .inr ⟨i, _, _, _, hi, ?_, ?_, ?_, rfl⟩⟩, ?_⟩
    · exact List.getElem?_eq_getElem _
    · exact List.getElem?_eq_getElem _
    · exact List.getElem?_eq_getElem _
    · exact h.append h.loopIdx rfl nofun

/-- One call of either kind. -/
theorem Settled.step {s : Session} {c : Call} (h : Settled s) (hallowed : Allowed s c) :
    ∃ server r, chat.step s c = some ⟨server, s.replies ++ [r]⟩ ∧ Answers s c r server.history ∧
      Settled ⟨server, s.replies ++ [r]⟩ := by
  cases c with
  | sayHello name =>
      refine ⟨_, _, rfl, ⟨⟨_, rfl⟩, rfl⟩, h.loopIdx, fun given => ?_⟩
      simp only [List.mem_append, List.mem_singleton, h.names, Reply.hello.injEq]
  | talkToMe message =>
      obtain ⟨server, r, hr, hanswers, hsettled⟩ := h.talkToMe hallowed
      exact ⟨server, r, by simp only [chat, handle, hr, Option.map_some], hanswers, hsettled⟩
  | whatDidYouSay index =>
      obtain ⟨r, hr, hanswers, hsettled⟩ := h.whatDidYouSay hallowed
      exact ⟨s.server, r, by simp only [chat, handle, hr, Option.map_some], hanswers, hsettled⟩

/-- **The chat service.**  Every sequence of calls in which the words are streamed
only while `word_idx` is 0, and an entry is asked for only with two before it in
the history, is answered without an index out of range; and a further call of
that kind is answered too: a name that `SayHello` gave gets the words, which are
added to the history, another name gets nothing, and `WhatDidYouSay` returns the
entry with the two before it, or an error. -/
theorem chat_answers_of_allowed {calls : List Call} (hcalls : chat.Meets Allowed .start calls) :
    ∃ s, chat.run .start calls = some s ∧ ∀ c, Allowed s c →
      ∃ server r, chat.step s c = some ⟨server, s.replies ++ [r]⟩ ∧
        Answers s c r server.history := by
  obtain ⟨s, hrun, hsettled⟩ := hcalls.run
    (fun s c h hc => let ⟨_, _, hstep, _, hs⟩ := h.step hc; ⟨_, hstep, hs⟩) settled_start
  refine ⟨s, hrun, fun c hc => ?_⟩
  obtain ⟨server, r, hstep, hanswers, -⟩ := hsettled.step hc
  exact ⟨server, r, hstep, hanswers⟩

/-- A greeting, a stream, a name nobody was given and a look back. -/
theorem chat_answers_once :
    ∃ s, chat.run .start [.sayHello "ann", .talkToMe "ann-0", .talkToMe "ann-1", .whatDidYouSay 3] =
      some s ∧ ∀ c, Allowed s c →
        ∃ server r, chat.step s c = some ⟨server, s.replies ++ [r]⟩ ∧
          Answers s c r server.history :=
  chat_answers_of_allowed (by decide +kernel)

/-- A second stream, an index behind the history and a negative one panic. -/
theorem chat_panics :
    chat.run .start [.sayHello "ann", .talkToMe "ann-0", .talkToMe "ann-0"] = none ∧
    chat.run .start [.sayHello "ann", .talkToMe "ann-0", .whatDidYouSay 6] = none ∧
    chat.run .start [.sayHello "ann", .talkToMe "ann-0", .whatDidYouSay (-1)] = none := by
  refine ⟨?_, ?_, ?_⟩ <;> decide +kernel

end Linuxyz.Grpc
