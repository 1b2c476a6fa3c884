import Linuxyz.Lib.System
import Mathlib.Data.List.Nodup

/-!
# Linuxyz.Tls.Table

The connection table of `dev-sock-tls-thread/server`: `CLIENT_CTX`, an array of
`MAX_CONN` channels, and `TLSCH_HEAD`, the index the next channel is stored at.

`set_tlsch` appends, `get_tlsch_ssl` and `get_tlsch_ctx` take the first match
among the entries up to and including the one at `TLSCH_HEAD`, and
`release_tlsch` frees the objects of every match there and moves `TLSCH_HEAD`
back by one.  It moves no entry, so the entry that leaves the table is the last
one, whichever socket is released: the table is a map only as long as the
sockets are released last in, first out.
-/

namespace Linuxyz.Tls

/-- `MAX_CONN`. -/
def maxConn : Nat := 80

/-- `struct TLS_CHANNEL`; a pointer is the identity of its object, `none` is
`NULL`. -/
structure TlsChannel where
  sock : Int
  ssl : Option Nat
  ctx : Option Nat
deriving DecidableEq, Repr

/-- `CLIENT_CTX` and `TLSCH_HEAD`.  `set_tlsch` stops before the head leaves the
array, so every loop up to it stays inside. -/
structure Table where
  clientCtx : List TlsChannel
  tlschHead : Int
  length_clientCtx : clientCtx.length = maxConn
  head_lt : tlschHead < maxConn

/-- The table `main` starts with: zeroed entries. -/
def Table.start : Table where
  clientCtx := List.replicate maxConn ⟨0, none, none⟩
  tlschHead := 0
  length_clientCtx := List.length_replicate
  head_lt := by decide

/-- The entries a loop `for(i = 0; i <= TLSCH_HEAD; i++)` visits. -/
def Table.visited (t : Table) : List TlsChannel := t.clientCtx.take (t.tlschHead + 1).toNat

/-- The entries below `TLSCH_HEAD`. -/
def Table.stored (t : Table) : List TlsChannel := t.clientCtx.take t.tlschHead.toNat

/-- The store at `CLIENT_CTX[TLSCH_HEAD]` and `TLSCH_HEAD += 1`. -/
def Table.append (t : Table) (ch : TlsChannel) (h : t.tlschHead + 1 ≠ maxConn) : Table where
  clientCtx := t.clientCtx.set t.tlschHead.toNat ch
  tlschHead := t.tlschHead + 1
  length_clientCtx := by rw [List.length_set, t.length_clientCtx]
  head_lt := by have := t.head_lt; omega

/-- `TLSCH_HEAD -= 1`. -/
def Table.dropHead (t : Table) : Table where
  clientCtx := t.clientCtx
  tlschHead := t.tlschHead - 1
  length_clientCtx := t.length_clientCtx
  head_lt := by have := t.head_lt; omega

section Stored

variable {t : Table} (h0 : 0 ≤ t.tlschHead)
include h0

theorem Table.toNat_head_lt : t.tlschHead.toNat < t.clientCtx.length := by
  have hlt := t.head_lt
  have hlen := t.length_clientCtx
  omega

/-- The loops visit the stored entries and one more. -/
theorem Table.visited_eq : t.visited = t.stored ++ [t.clientCtx.get ⟨_, t.toNat_head_lt h0⟩] := by
  have hn : (t.tlschHead + 1).toNat = t.tlschHead.toNat + 1 := by omega
  rw [Table.visited, hn, List.take_succ_eq_append_getElem (t.toNat_head_lt h0)]
  rfl

theorem Table.length_stored : t.stored.length = t.tlschHead.toNat := by
  rw [Table.stored, List.length_take, Nat.min_eq_left (Nat.le_of_lt (t.toNat_head_lt h0))]

theorem Table.mem_visited (hch : ch ∈ t.stored) : ch ∈ t.visited := by
  rw [t.visited_eq h0]
  exact List.mem_append_left _ hch

theorem Table.stored_append (ch : TlsChannel) (hmax : t.tlschHead + 1 ≠ maxConn) :
    (t.append ch hmax).stored = t.stored ++ [ch] := by
  have hn : (t.tlschHead + 1).toNat = t.tlschHead.toNat + 1 := by omega
  have hlt := t.toNat_head_lt h0
  simp only [Table.stored, Table.append, hn]
  rw [List.take_succ_eq_append_getElem (by rwa [List.length_set]),
    List.take_set_of_le (Nat.le_refl _), List.getElem_set_self]

end Stored

theorem Table.stored_dropHead (t : Table) : t.dropHead.stored = t.stored.dropLast := by
  have hpos : 0 < maxConn := by decide
  have hlt := t.head_lt
  have hlen := t.length_clientCtx
  have hn : (t.tlschHead - 1).toNat = t.tlschHead.toNat - 1 := by omega
  simp only [Table.stored, Table.dropHead, hn]
  rw [List.dropLast_take (by omega)]

/-- `set_tlsch`: its result and the table; `none` is a store in front of the
array. -/
def setTlsch (t : Table) (sock : Int) (ssl ctx : Option Nat) : Option (Int × Table) :=
  if h : t.tlschHead + 1 = maxConn then some (-1, t)
  else if t.tlschHead < 0 then none
  else some (0, t.append ⟨sock, ssl, ctx⟩ h)

/-- `get_tlsch_ssl`. -/
def getTlschSsl (t : Table) (sock : Int) : Option Nat :=
  (t.visited.find? (·.sock == sock)).bind (·.ssl)

/-- `get_tlsch_ctx`. -/
def getTlschCtx (t : Table) (sock : Int) : Option Nat :=
  (t.visited.find? (·.sock == sock)).bind (·.ctx)

/-- The entries `release_tlsch` finds, whose objects it frees. -/
def Table.hits (t : Table) (sock : Int) : List TlsChannel := t.visited.filter (·.sock == sock)

/-- `release_tlsch`: its result and the table. -/
def releaseTlsch (t : Table) (sock : Int) : Int × Table :=
  if t.hits sock = [] then (-1, t) else (0, t.dropHead)

/-! ## sequences of calls -/

/-- A call that changes the table. -/
inductive Call where
  | setTlsch (sock : Int) (ssl ctx : Option Nat)
  | releaseTlsch (sock : Int)
deriving DecidableEq, Repr

/-- The table after some calls, together with what those calls say it should
hold: the channels set and not since released, oldest first, and what the calls
of `set_tlsch` returned. -/
structure Calls where
  table : Table
  live : List TlsChannel
  returned : List Int

def Calls.start : Calls := ⟨.start, [], []⟩

/-- The calls as a transition system; a store outside the array ends a run. -/
def calls : System Calls Call where
  init s := s = .start
  step s
    | .setTlsch sock ssl ctx =>
        (setTlsch s.table sock ssl ctx).map fun r =>
          ⟨r.2, s.live ++ [⟨sock, ssl, ctx⟩], s.returned ++ [r.1]⟩
    | .releaseTlsch sock =>
        some ⟨(releaseTlsch s.table sock).2, s.live.filter (·.sock != sock), s.returned⟩

/-- A socket is set while it is not live and fewer than `MAX_CONN - 1` others
are. -/
def Within (s : Calls) : Call → Prop
  | .setTlsch sock _ _ => (∀ ch ∈ s.live, ch.sock ≠ sock) ∧ s.live.length < maxConn - 1
  | .releaseTlsch _ => True

/-- A socket is released while it is the live one set last, or while no entry
the release looks at names it. -/
def LastOut (s : Calls) : Call → Prop
  | .setTlsch _ _ _ => True
  | .releaseTlsch sock => s.live.getLast?.map (·.sock) = some sock ∨ s.table.hits sock = []

instance decidableWithin (s : Calls) : (c : Call) → Decidable (Within s c)
  | .setTlsch sock _ _ =>
      inferInstanceAs (Decidable ((∀ ch ∈ s.live, ch.sock ≠ sock) ∧ s.live.length < maxConn - 1))
  | .releaseTlsch _ => .isTrue trivial

instance decidableLastOut (s : Calls) : (c : Call) → Decidable (LastOut s c)
  | .setTlsch _ _ _ => .isTrue trivial
  | .releaseTlsch sock =>
      inferInstanceAs (Decidable (s.live.getLast?.map (·.sock) = some sock ∨
        s.table.hits sock = []))

/-! ## the table as a map -/

/-- The live channels are the stored entries, one for each socket. -/
structure Holds (s : Calls) : Prop where
  head_nonneg : 0 ≤ s.table.tlschHead
  stored : s.table.stored = s.live
  distinct : (s.live.map (·.sock)).Nodup

/-- A search by socket finds the one channel of that socket. -/
theorem find?_sock {l : List TlsChannel} (hl : (l.map (·.sock)).Nodup) (hch : ch ∈ l) :
    l.find? (·.sock == ch.sock) = some ch := by
  induction l with
  | nil => cases hch
  | cons a l ih =>
      rw [List.map_cons, List.nodup_cons] at hl
      rcases List.mem_cons.mp hch with rfl | hmem
      · simp
      · have hne : a.sock ≠ ch.sock := fun he => hl.1 (he ▸ List.mem_map_of_mem hmem)
        rw [List.find?_cons_of_neg (by simpa using hne)]
        exact ih hl.2 hmem

variable {s : Calls}

theorem Holds.find? (h : Holds s) (hch : ch ∈ s.live) :
    s.table.visited.find? (·.sock == ch.sock) = some ch := by
  rw [s.table.visited_eq h.head_nonneg, h.stored, List.find?_append, find?_sock h.distinct hch,
    Option.some_or]

theorem Holds.getTlschSsl (h : Holds s) (hch : ch ∈ s.live) :
    getTlschSsl s.table ch.sock = ch.ssl := by
  rw [Tls.getTlschSsl, h.find? hch, Option.bind_some]

theorem Holds.getTlschCtx (h : Holds s) (hch : ch ∈ s.live) :
    getTlschCtx s.table ch.sock = ch.ctx := by
  rw [Tls.getTlschCtx, h.find? hch, Option.bind_some]

theorem holds_start : Holds .start where
  head_nonneg := by decide
  stored := rfl
  distinct := List.nodup_nil

theorem nodup_map_append_singleton {f : α → β} {l : List α} {a : α} (hl : (l.map f).Nodup)
    (hfresh : ∀ b ∈ l, f b ≠ f a) : ((l ++ [a]).map f).Nodup := by
  have hnot : f a ∉ l.map f := by
    intro hmem
    obtain ⟨b, hb, he⟩ := List.mem_map.mp hmem
    exact hfresh b hb he
  rw [List.map_append, List.map_singleton, ← List.concat_eq_append]
  exact hl.concat hnot

/-- A new client, while there is room for it. -/
theorem Holds.setTlsch (h : Holds s) (hw : Within s (.setTlsch sock ssl ctx)) :
    ∃ t, setTlsch s.table sock ssl ctx = some (0, t) ∧
      Holds ⟨t, s.live ++ [⟨sock, ssl, ctx⟩], s.returned ++ [0]⟩ := by
  obtain ⟨hfresh, hroom⟩ := hw
  have hnonneg := h.head_nonneg
  have hlen : s.live.length = s.table.tlschHead.toNat := by
    rw [← h.stored, Table.length_stored hnonneg]
  have hmax : s.table.tlschHead + 1 ≠ maxConn := by simp only [maxConn] at hroom ⊢; omega
  refine ⟨s.table.append ⟨sock, ssl, ctx⟩ hmax, ?_, ?_, ?_,
    nodup_map_append_singleton h.distinct hfresh⟩
  · rw [Tls.setTlsch, dif_neg hmax, if_neg (by omega)]
  · exact Int.le_add_one hnonneg
  · rw [Table.stored_append hnonneg _ hmax, h.stored]

/-- Releasing the channel set last takes it off the end of the table. -/
theorem Holds.releaseTlsch (h : Holds s) (hlast : LastOut s (.releaseTlsch sock)) :
    Holds ⟨(releaseTlsch s.table sock).2, s.live.filter (·.sock != sock), s.returned⟩ := by
  have hmem {ch : TlsChannel} (hch : ch ∈ s.live) : ch ∈ s.table.visited :=
    Table.mem_visited h.head_nonneg (h.stored ▸ hch)
  rcases hlast with hlast | hnone
  · obtain ⟨ch, hch, rfl⟩ := Option.map_eq_some_iff.mp hlast
    obtain ⟨l, hl⟩ := List.getLast?_eq_some_iff.mp hch
    have hdist : ((l ++ [ch]).map (·.sock)).Nodup := hl ▸ h.distinct
    rw [List.map_append, List.nodup_append] at hdist
    have hrest : s.live.filter (·.sock != ch.sock) = l := by
      rw [hl, List.filter_append, List.filter_eq_self.mpr]
      · simp
      · intro a ha
        simpa using hdist.2.2 _ (List.mem_map_of_mem ha) ch.sock (by simp)
    have hhit : s.table.hits ch.sock ≠ [] :=
      List.ne_nil_of_mem (List.mem_filter.mpr ⟨hmem (List.mem_of_getLast? hch), by simp⟩)
    rw [Tls.releaseTlsch, if_neg hhit, hrest]
    refine ⟨?_, ?_, hdist.1⟩
    · have hlen := Table.length_stored h.head_nonneg
      rw [h.stored, hl, List.length_append, List.length_singleton] at hlen
      simp only [Table.dropHead]
      omega
    · rw [Table.stored_dropHead, h.stored, hl, List.dropLast_concat]
  · -- no live channel has the socket, and nothing changes
    have hrest : s.live.filter (·.sock != sock) = s.live := by
      rw [List.filter_eq_self]
      intro ch hch
      simpa using List.filter_eq_nil_iff.mp hnone ch (hmem hch)
    rw [Tls.releaseTlsch, if_pos hnone, hrest]
    exact ⟨h.head_nonneg, h.stored, h.distinct⟩

/-- One call keeps the table a map of the live channels, and `set_tlsch`
succeeds. -/
theorem holds_step {c : Call} (h : Holds s ∧ ∀ r ∈ s.returned, r = 0)
    (hc : Within s c ∧ LastOut s c) :
    ∃ s', calls.step s c = some s' ∧ Holds s' ∧ ∀ r ∈ s'.returned, r = 0 := by
  obtain ⟨hs, hret⟩ := h
  cases c with
  | setTlsch sock ssl ctx =>
      obtain ⟨t, ht, hholds⟩ := hs.setTlsch hc.1
      refine ⟨_, by simp only [calls, ht, Option.map_some], hholds, ?_⟩
      exact List.forall_mem_append.mpr ⟨hret, List.forall_mem_singleton.mpr rfl⟩
  | releaseTlsch sock => exact ⟨_, rfl, hs.releaseTlsch hc.2, hret⟩

/-- **The connection table is a map as long as sockets are released last in,
first out.**  Every such sequence of calls runs to its end with every
`set_tlsch` successful, both lookups answer with what the last `set_tlsch` of a
live socket was given, and a release leaves the answers for the other live
sockets as they are. -/
theorem tlsch_map_of_lastOut {cs : List Call}
    (hcs : calls.Meets (fun s c => Within s c ∧ LastOut s c) .start cs) :
    ∃ s, calls.run .start cs = some s ∧ (∀ r ∈ s.returned, r = 0) ∧
      (∀ ch ∈ s.live, getTlschSsl s.table ch.sock = ch.ssl ∧ getTlschCtx s.table ch.sock = ch.ctx) ∧
      ∀ sock, LastOut s (.releaseTlsch sock) → ∀ ch ∈ s.live, ch.sock ≠ sock →
        getTlschSsl (releaseTlsch s.table sock).2 ch.sock = getTlschSsl s.table ch.sock ∧
        getTlschCtx (releaseTlsch s.table sock).2 ch.sock = getTlschCtx s.table ch.sock := by
  have hstart : Holds .start ∧ ∀ r ∈ Calls.start.returned, r = 0 :=
    ⟨holds_start, fun r hr => by cases hr⟩
  obtain ⟨s, hrun, hs, hret⟩ := hcs.run (fun _ _ h hc => holds_step h hc) hstart
  refine ⟨s, hrun, hret, fun ch hch => ⟨hs.getTlschSsl hch, hs.getTlschCtx hch⟩, ?_⟩
  intro sock hlast ch hch hne
  have hafter := hs.releaseTlsch hlast
  have hmem : ch ∈ s.live.filter (·.sock != sock) := List.mem_filter.mpr ⟨hch, by simpa using hne⟩
  exact ⟨(hafter.getTlschSsl hmem).trans (hs.getTlschSsl hch).symm,
    (hafter.getTlschCtx hmem).trans (hs.getTlschCtx hch).symm⟩

/-- Two connections, of which the last is released and replaced by a third. -/
theorem tlsch_map_of_nested :
    ∃ s, calls.run .start [.setTlsch 5 (some 0) (some 0), .setTlsch 6 (some 1) (some 1),
      .releaseTlsch 6,
        .setTlsch 7 (some 2) (some 2)] = some s ∧ (∀ r ∈ s.returned, r = 0) ∧
      (∀ ch ∈ s.live, getTlschSsl s.table ch.sock = ch.ssl ∧ getTlschCtx s.table ch.sock = ch.ctx) ∧
      ∀ sock, LastOut s (.releaseTlsch sock) → ∀ ch ∈ s.live, ch.sock ≠ sock →
        getTlschSsl (releaseTlsch s.table sock).2 ch.sock = getTlschSsl s.table ch.sock ∧
        getTlschCtx (releaseTlsch s.table sock).2 ch.sock = getTlschCtx s.table ch.sock :=
  tlsch_map_of_lastOut (by decide)

/-- A release out of order: the channel of 6 leaves the table in the place of
the released 5, and the next `set_tlsch` overwrites it. -/
theorem tlsch_loses_live_channel :
    ∃ s, calls.run .start [.setTlsch 5 (some 0) (some 0), .setTlsch 6 (some 1) (some 1),
      .releaseTlsch 5,
        .setTlsch 7 (some 2) (some 2)] = some s ∧
      calls.Meets Within .start [.setTlsch 5 (some 0) (some 0), .setTlsch 6 (some 1) (some 1),
        .releaseTlsch 5, .setTlsch 7 (some 2) (some 2)] ∧
      s.live = [⟨6, some 1, some 1⟩, ⟨7, some 2, some 2⟩] ∧
      getTlschSsl s.table 6 = none ∧ getTlschCtx s.table 6 = none :=
  ⟨_, rfl, by decide, rfl, rfl, rfl⟩

end Linuxyz.Tls
