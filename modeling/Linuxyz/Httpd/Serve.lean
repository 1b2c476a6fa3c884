import Linuxyz.Httpd.Request
import Linuxyz.Lib.Counting
import Linuxyz.Lib.System

/-!
# Linuxyz.Httpd.Serve

`serve_forever` of `nat_httpd.c`: the parent accepts a connection into a slot of the shared
table `clients`, forks a child that answers it, and goes on to a slot that is free.  The child
gives the slot back when it has answered.

However the processes run, each answer goes to the client that asked for it, once
(`serve_answers`).  But the parent closes the descriptor that it finds in the slot after the
fork, and if the child has been faster there is none; and the slot of a child that dies, or that
could not be forked, is never given back.  Descriptors and slots that are lost so are lost for
good (`lost_for_ever`), and there is no other way to lose one (`nothing_lost`).
-/

namespace Linuxyz.Httpd

open Function (update update_of_ne)

/-! ## The processes -/

/-- Where a child is: in front of `recv`, of `clientfd = clients[slot]` with the request that
it has read, or of `clients[slot] = -1`. -/
inductive ChildPc where
  | recv
  | answer (r : Request)
  | release
deriving DecidableEq, Repr

/-- A child with the slot and the connection that it was forked for, and the descriptors that
it has inherited, with their connections. -/
structure Child where
  slot : Nat
  conn : Nat
  fds : List (Nat × Nat)
  pc : ChildPc
deriving DecidableEq, Repr

/-- Where the parent is in its loop, with the descriptor and the connection that it has
accepted. -/
inductive ParentPc where
  | accepting
  | forking (fd conn : Nat)
  | closing (fd : Nat)
  | seeking
  /-- after `exit(1)` -/
  | exited
deriving DecidableEq, Repr

structure Sys where
  /-- the shared table; `none` is -1 -/
  clients : Nat → Option Nat
  slot : Nat
  pc : ParentPc
  /-- the descriptors of connections that the parent has open -/
  fds : List (Nat × Nat)
  conns : Nat
  children : List Child
  /-- what has been read from which connection -/
  received : List (Nat × List UInt8)
  /-- the connection that an answer went to, that of the child that wrote it, and the answer -/
  answered : List (Option Nat × Nat × List UInt8)
  /-- the slots that no process will give back -/
  lostSlots : List Nat
  /-- the descriptors that the parent has gone past -/
  lostFds : List Nat

structure Config where
  /-- `MAX_CONNECTIONS` -/
  maxConnections : Nat
  /-- how many connections the parent can have open -/
  maxFds : Nat
  /-- the file `./public/index.html` -/
  index : Option (List UInt8)
  pos : 0 < maxConnections

/-! ## Steps -/

inductive Act where
  | accept (fd : Nat)
  | acceptFails
  | fork (ok : Bool)
  | close
  | seek
  /-- `recv` of a child, `none` for an error -/
  | recv (i : Nat) (data : Option (List UInt8))
  | answer (i : Nat)
  | release (i : Nat)
  /-- a signal ends a child, as SIGPIPE does when its client has gone -/
  | dies (i : Nat)
deriving DecidableEq, Repr

/-- The connection behind the descriptor that a child finds in its slot. -/
def Sys.target (s : Sys) (c : Child) : Option Nat :=
  (s.clients c.slot).bind fun fd => c.fds.lookup fd

def Sys.moveChild (s : Sys) (i : Nat) (c : Child) (pc : ChildPc) : Sys :=
  { s with children := s.children.set i { c with pc } }

/-- A child ends without giving its slot back. -/
def Sys.bury (s : Sys) (i : Nat) (c : Child) : Sys :=
  { s with children := s.children.eraseIdx i, lostSlots := s.lostSlots ++ [c.slot] }

/-- `respond` up to `route`.  Where there is no connection behind the descriptor, `recv`
fails. -/
def recvStep (s : Sys) (i : Nat) (c : Child) (data : Option (List UInt8)) : Sys :=
  match s.target c, data with
  | some conn, some data =>
      let s := { s with received := s.received ++ [(conn, data)] }
      if data = [] then s.moveChild i c .release
      else
        match parseRequest data with
        | none => s.bury i c
        | some r => s.moveChild i c (.answer r)
  | _, _ => s.moveChild i c .release

def step (cfg : Config) (s : Sys) : Act → Option Sys
  | .accept fd =>
      if s.pc = .accepting ∧ fd ∉ s.fds.map Prod.fst ∧ s.fds.length < cfg.maxFds then
        some { s with
          clients := update s.clients s.slot (some fd)
          fds := s.fds ++ [(fd, s.conns)]
          conns := s.conns + 1
          pc := .forking fd s.conns }
      else none
  | .acceptFails => if s.pc = .accepting then some { s with pc := .exited } else none
  | .fork ok =>
      match s.pc with
      | .forking fd conn =>
          if ok then
            some { s with
              children := s.children ++ [⟨s.slot, conn, s.fds, .recv⟩], pc := .closing fd }
          else some { s with lostSlots := s.lostSlots ++ [s.slot], pc := .closing fd }
      | _ => none
  | .close =>
      match s.pc with
      | .closing fd =>
          match s.clients s.slot with
          | some fd => some { s with fds := s.fds.filter (·.1 ≠ fd), pc := .seeking }
          | none => some { s with lostFds := s.lostFds ++ [fd], pc := .seeking }
      | _ => none
  | .seek =>
      if s.pc = .seeking then
        match s.clients s.slot with
        | none => some { s with pc := .accepting }
        | some _ => some { s with slot := (s.slot + 1) % cfg.maxConnections }
      else none
  | .recv i data =>
      match s.children[i]? with
      | some c => if c.pc = .recv then some (recvStep s i c data) else none
      | none => none
  | .answer i =>
      match s.children[i]? with
      | some c =>
          match c.pc with
          | .answer r =>
              some { s.moveChild i c .release with
                answered := s.answered ++ [(s.target c, c.conn, route cfg.index r)] }
          | _ => none
      | none => none
  | .release i =>
      match s.children[i]? with
      | some c =>
          if c.pc = .release then
            some { s with
              children := s.children.eraseIdx i
              clients := update s.clients c.slot none }
          else none
      | none => none
  | .dies i => s.children[i]?.map (s.bury i)

def start : Sys where
  clients _ := none
  slot := 0
  pc := .accepting
  fds := []
  conns := 0
  children := []
  received := []
  answered := []
  lostSlots := []
  lostFds := []

def server (cfg : Config) : System Sys Act where
  init s := s = start
  step := step cfg

variable {cfg : Config} {s s' : Sys} {c : Child} {i fd conn : Nat}

/-! ## What a step can do -/

/-- What a child does in `respond` while it lives: where it goes, what it has read and what it
has answered. -/
inductive Talk (cfg : Config) (s : Sys) (c : Child) :
    ChildPc → List (Nat × List UInt8) → List (Option Nat × Nat × List UInt8) → Prop where
  | quiet (hpc : c.pc = .recv) (received : List (Nat × List UInt8)) :
      Talk cfg s c .release received []
  | asked {conn : Nat} {data : List UInt8} {r : Request} (hpc : c.pc = .recv)
      (htarget : s.target c = some conn)
      (hr : parseRequest data = some r) : Talk cfg s c (.answer r) [(conn, data)] []
  | answers {r : Request} (hpc : c.pc = .answer r) :
      Talk cfg s c .release [] [(s.target c, c.conn, route cfg.index r)]

inductive Effect (cfg : Config) (s : Sys) : Sys → Prop where
  | accept {fd : Nat} (hpc : s.pc = .accepting) (hfd : fd ∉ s.fds.map Prod.fst)
      (hlen : s.fds.length < cfg.maxFds) :
      Effect cfg s { s with
        clients := update s.clients s.slot (some fd)
        fds := s.fds ++ [(fd, s.conns)]
        conns := s.conns + 1
        pc := .forking fd s.conns }
  | exit (hpc : s.pc = .accepting) : Effect cfg s { s with pc := .exited }
  | fork {fd conn : Nat} (hpc : s.pc = .forking fd conn) :
      Effect cfg s { s with
        children := s.children ++ [⟨s.slot, conn, s.fds, .recv⟩], pc := .closing fd }
  | forkFails {fd conn : Nat} (hpc : s.pc = .forking fd conn) :
      Effect cfg s { s with lostSlots := s.lostSlots ++ [s.slot], pc := .closing fd }
  | close {fd fd' : Nat} (hpc : s.pc = .closing fd) (hclient : s.clients s.slot = some fd') :
      Effect cfg s { s with fds := s.fds.filter (·.1 ≠ fd'), pc := .seeking }
  | closeNothing {fd : Nat} (hpc : s.pc = .closing fd) (hclient : s.clients s.slot = none) :
      Effect cfg s { s with lostFds := s.lostFds ++ [fd], pc := .seeking }
  | found (hpc : s.pc = .seeking) (hclient : s.clients s.slot = none) :
      Effect cfg s { s with pc := .accepting }
  | next (hpc : s.pc = .seeking) : Effect cfg s { s with slot := (s.slot + 1) % cfg.maxConnections }
  | talk {i : Nat} {c : Child} {pc : ChildPc} {received : List (Nat × List UInt8)}
      {answered : List (Option Nat × Nat × List UInt8)} (hc : s.children[i]? = some c)
      (htalk : Talk cfg s c pc received answered) :
      Effect cfg s { s with
        children := s.children.set i { c with pc }
        received := s.received ++ received
        answered := s.answered ++ answered }
  | release {i : Nat} {c : Child} (hc : s.children[i]? = some c) (hpc : c.pc = .release) :
      Effect cfg s { s with
        children := s.children.eraseIdx i
        clients := update s.clients c.slot none }
  | dies {i : Nat} {c : Child} (hc : s.children[i]? = some c) (received : List (Nat × List UInt8)) :
      Effect cfg s { s with
        children := s.children.eraseIdx i
        received := s.received ++ received
        lostSlots := s.lostSlots ++ [c.slot] }

/-- What a child does upon `recv`, whatever it returns. -/
theorem effect_recvStep (hc : s.children[i]? = some c) (hpc : c.pc = .recv)
    (data : Option (List UInt8)) : Effect cfg s (recvStep s i c data) := by
  have hquiet : ∀ received, Effect cfg s { s with
      children := s.children.set i { c with pc := .release },
      received := s.received ++ received } := fun received => by
    have heffect : Effect cfg s _ := .talk hc (.quiet hpc received)
    rwa [List.append_nil] at heffect
  have hnothing := hquiet []
  rw [List.append_nil] at hnothing
  unfold recvStep
  split
  case h_1 conn data htarget =>
    dsimp only
    split
    · exact hquiet _
    · split
      · exact .dies hc _
      · rename_i r hr
        have heffect : Effect cfg s _ := .talk hc (.asked hpc htarget hr)
        rwa [List.append_nil] at heffect
  case h_2 => exact hnothing

/-- Every step of the parent or of a child is one of the effects. -/
theorem effect_of_step {a : Act} (hs : step cfg s a = some s') : Effect cfg s s' := by
  cases a with
  | accept fd =>
      simp only [step, Option.ite_none_right_eq_some, Option.some.injEq] at hs
      obtain ⟨⟨hpc, hfd, hlen⟩, rfl⟩ := hs
      exact .accept hpc hfd hlen
  | acceptFails =>
      simp only [step, Option.ite_none_right_eq_some, Option.some.injEq] at hs
      obtain ⟨hpc, rfl⟩ := hs
      exact .exit hpc
  | fork ok =>
      simp only [step] at hs
      split at hs
      case h_1 fd conn hpc =>
        cases ok <;> cases hs
        · exact .forkFails hpc
        · exact .fork hpc
      case h_2 => cases hs
  | close =>
      simp only [step] at hs
      split at hs
      case h_1 fd hpc =>
        split at hs <;> cases hs
        case h_1 fd' hclient => exact .close hpc hclient
        case h_2 hclient => exact .closeNothing hpc hclient
      case h_2 => cases hs
  | seek =>
      simp only [step, Option.ite_none_right_eq_some] at hs
      obtain ⟨hpc, hs⟩ := hs
      split at hs <;> cases hs
      case h_1 hclient => exact .found hpc hclient
      case h_2 => exact .next hpc
  | recv i data =>
      simp only [step] at hs
      split at hs
      case h_1 c hc =>
        simp only [Option.ite_none_right_eq_some, Option.some.injEq] at hs
        obtain ⟨hpc, rfl⟩ := hs
        exact effect_recvStep hc hpc data
      case h_2 => cases hs
  | answer i =>
      simp only [step] at hs
      split at hs
      case h_1 c hc =>
        split at hs
        case h_1 r hpc =>
          cases hs
          have heffect : Effect cfg s _ := .talk hc (.answers hpc)
          rwa [List.append_nil] at heffect
        case h_2 => cases hs
      case h_2 => cases hs
  | release i =>
      simp only [step] at hs
      split at hs
      case h_1 c hc =>
        simp only [Option.ite_none_right_eq_some, Option.some.injEq] at hs
        obtain ⟨hpc, rfl⟩ := hs
        exact .release hc hpc
      case h_2 => cases hs
  | dies i =>
      simp only [step, Option.map_eq_some_iff] at hs
      obtain ⟨c, hc, rfl⟩ := hs
      have heffect : Effect cfg s _ := .dies hc []
      rwa [List.append_nil] at heffect

/-! ## Slots -/

/-- The slots that are not -1 are those of the list, and each is there once. -/
structure Busy (clients : Nat → Option Nat) (l : List Nat) : Prop where
  nodup : l.Nodup
  mem_iff : ∀ i, i ∈ l ↔ clients i ≠ none

section Busy

variable {clients : Nat → Option Nat} {l l' : List Nat}

theorem Busy.perm (h : Busy clients l) (hl : l'.Perm l) : Busy clients l' :=
  ⟨hl.nodup_iff.mpr h.nodup, fun i => hl.mem_iff.trans (h.mem_iff i)⟩

theorem Busy.claim (h : Busy clients l) (hi : clients i = none) (fd : Nat) :
    Busy (update clients i (some fd)) (i :: l) := by
  refine ⟨List.nodup_cons.mpr ⟨fun hmem => (h.mem_iff i).mp hmem hi, h.nodup⟩, fun j => ?_⟩
  rw [List.mem_cons, h.mem_iff]
  by_cases hj : j = i
  · simp [hj]
  · simp [hj]

theorem Busy.free (h : Busy clients (i :: l)) : Busy (update clients i none) l := by
  obtain ⟨hnot, hnodup⟩ := List.nodup_cons.mp h.nodup
  refine ⟨hnodup, fun j => ?_⟩
  by_cases hj : j = i
  · simp [hj, hnot]
  · rw [update_of_ne hj, ← h.mem_iff, List.mem_cons, or_iff_right hj]

end Busy

/-- The slot that the parent has filled and not handed on. -/
def Sys.current (s : Sys) : List Nat :=
  match s.pc with
  | .forking _ _ => [s.slot]
  | _ => []

def Sys.slots (s : Sys) : List Nat := s.children.map Child.slot ++ s.lostSlots ++ s.current

/-- A child finds the descriptor of its own connection in its slot. -/
def Child.Ok (clients : Nat → Option Nat) (c : Child) : Prop :=
  (c.fds.map Prod.fst).Nodup ∧ ∃ fd, clients c.slot = some fd ∧ (fd, c.conn) ∈ c.fds

/-- What the parent knows of its slot. -/
def ParentOk (s : Sys) : Prop :=
  match s.pc with
  | .accepting => s.clients s.slot = none
  | .forking fd conn => s.clients s.slot = some fd ∧ (fd, conn) ∈ s.fds
  | .closing fd => s.clients s.slot = none ∨ s.clients s.slot = some fd
  | _ => True

structure SlotInv (cfg : Config) (s : Sys) : Prop where
  slot : s.slot < cfg.maxConnections
  busy : Busy s.clients s.slots
  bound : ∀ i ∈ s.slots, i < cfg.maxConnections
  children : ∀ c ∈ s.children, c.Ok s.clients
  parent : ParentOk s
  keys : (s.fds.map Prod.fst).Nodup

theorem Child.Ok.target (h : c.Ok s.clients) : s.target c = some c.conn := by
  obtain ⟨hkeys, fd, hclient, hfd⟩ := h
  rw [Sys.target, hclient, Option.bind_some]
  exact lookup_of_mem hkeys hfd

theorem children_perm (hc : s.children[i]? = some c) :
    s.children.Perm (c :: s.children.eraseIdx i) := by
  obtain ⟨hi, rfl⟩ := List.getElem?_eq_some_iff.mp hc
  exact (List.getElem_cons_eraseIdx_perm hi).symm

theorem map_slot_set (hc : s.children[i]? = some c) (pc : ChildPc) :
    (s.children.set i { c with pc }).map Child.slot = s.children.map Child.slot := by
  obtain ⟨hi, rfl⟩ := List.getElem?_eq_some_iff.mp hc
  have hi' : i < (s.children.map Child.slot).length := by rwa [List.length_map]
  have hmap : (s.children.map Child.slot)[i] = s.children[i].slot := List.getElem_map _
  rw [List.map_set, ← hmap, List.set_getElem_self]

/-- The slot of a child that ends, and the others. -/
theorem slots_eraseIdx (hc : s.children[i]? = some c) :
    (c.slot :: ((s.children.eraseIdx i).map Child.slot ++ s.lostSlots ++ s.current)).Perm
      s.slots := by
  have hmap := (children_perm hc).map Child.slot
  rw [List.map_cons] at hmap
  exact ((hmap.append_right s.lostSlots).append_right s.current).symm

/-- Another process claims or frees a slot that is not the child's. -/
theorem Child.Ok.update {clients : Nat → Option Nat} {v : Option Nat} (h : c.Ok clients)
    (hi : c.slot ≠ i) : c.Ok (update clients i v) := by
  obtain ⟨hkeys, fd, hclient, hfd⟩ := h
  exact ⟨hkeys, fd, by rw [update_of_ne hi, hclient], hfd⟩

/-- The parent may be about to close the slot that a child frees, but has not filled it anew. -/
theorem ParentOk.release (h : ParentOk s) (hi : i ∉ s.current) :
    ParentOk { s with clients := update s.clients i none } := by
  have hclients : update s.clients i none s.slot = none ∨
      update s.clients i none s.slot = s.clients s.slot := by
    by_cases hslot : s.slot = i
    · exact .inl (by rw [hslot, Function.update_self])
    · exact .inr (update_of_ne hslot ..)
  cases hpc : s.pc <;> simp only [ParentOk, Sys.current, hpc] at h hi ⊢
  case accepting => exact hclients.elim id (·.trans h)
  case forking fd conn =>
      have hne : s.slot ≠ i := fun heq => hi (List.mem_singleton.mpr heq.symm)
      exact ⟨(update_of_ne hne ..).trans h.1, h.2⟩
  case closing fd =>
      rcases hclients with hnone | hsame
      · exact .inl hnone
      · exact h.imp hsame.trans hsame.trans

/-- No effect makes two children share a slot, or frees one that is in use. -/
theorem slotInv_effect (h : SlotInv cfg s) (he : Effect cfg s s') : SlotInv cfg s' := by
  have hslot := h.slot
  have hbusy := h.busy
  have hbound := h.bound
  have hparent := h.parent
  cases he with
  | @accept fd hpc hfd _ =>
      simp only [ParentOk, Sys.slots, Sys.current, hpc, List.append_nil] at hparent hbusy hbound
      have hperm : ∀ l : List Nat, (l ++ [s.slot]).Perm (s.slot :: l) :=
        List.perm_append_singleton s.slot
      exact
        { slot := hslot
          busy := (hbusy.claim hparent fd).perm (hperm _)
          bound :=
            fun j hj => (List.mem_cons.mp ((hperm _).mem_iff.mp hj)).elim (· ▸ hslot) (hbound j)
          children := fun c hc => (h.children c hc).update fun heq => by
            obtain ⟨-, fd', hclient, -⟩ := h.children c hc
            rw [heq, hparent] at hclient
            cases hclient
          parent := ⟨Function.update_self .., List.mem_append_right _ List.mem_cons_self⟩
          keys := by
            rw [List.map_append]
            exact h.keys.append (List.nodup_singleton _) (List.disjoint_singleton.mpr hfd) }
  | exit hpc | closeNothing hpc _ =>
      simp only [Sys.slots, Sys.current, hpc] at hbusy hbound
      exact { h with busy := hbusy, bound := hbound, parent := trivial }
  | @fork fd conn hpc =>
      simp only [ParentOk, Sys.slots, Sys.current, hpc] at hparent hbusy hbound
      have hperm :
          ((s.children ++ [(⟨s.slot, conn, s.fds, .recv⟩ : Child)]).map Child.slot ++
            s.lostSlots ++ []).Perm
          (s.children.map Child.slot ++ s.lostSlots ++ [s.slot]) :=
        List.perm_iff_count.mpr fun a => by
          simp only [List.map_append, List.map_cons, List.map_nil, List.count_append,
            List.count_nil]
          omega
      exact
        { h with
          busy := hbusy.perm hperm
          bound := fun j hj => hbound j (hperm.mem_iff.mp hj)
          children := List.forall_mem_append.mpr
            ⟨h.children, List.forall_mem_singleton.mpr ⟨h.keys, fd, hparent.1, hparent.2⟩⟩
          parent := .inr hparent.1 }
  | @forkFails fd conn hpc =>
      simp only [ParentOk, Sys.slots, Sys.current, hpc, List.append_assoc] at hparent hbusy hbound
      have heq : Sys.slots { s with lostSlots := s.lostSlots ++ [s.slot], pc := .closing fd } =
          s.children.map Child.slot ++ (s.lostSlots ++ [s.slot]) := by simp [Sys.slots, Sys.current]
      exact { h with busy := heq ▸ hbusy, bound := heq ▸ hbound, parent := .inr hparent.1 }
  | close hpc _ =>
      simp only [Sys.slots, Sys.current, hpc] at hbusy hbound
      exact
        { h with
          busy := hbusy
          bound := hbound
          parent := trivial
          keys := h.keys.sublist (List.filter_sublist.map _) }
  | found hpc hclient =>
      simp only [Sys.slots, Sys.current, hpc] at hbusy hbound
      exact { h with busy := hbusy, bound := hbound, parent := hclient }
  | next hpc =>
      simp only [Sys.slots, Sys.current, hpc] at hbusy hbound
      have hslots : Sys.slots { s with slot := (s.slot + 1) % cfg.maxConnections } =
          s.children.map Child.slot ++ s.lostSlots ++ [] := by simp [Sys.slots, Sys.current, hpc]
      exact
        { h with
          slot := Nat.mod_lt _ cfg.pos
          busy := hslots ▸ hbusy
          bound := hslots ▸ hbound
          parent := by simp only [ParentOk, hpc] }
  | @talk i c pc received answered hc _ =>
      have heq : Sys.slots { s with
          children := s.children.set i { c with pc }, received := s.received ++ received,
          answered := s.answered ++ answered } = s.slots :=
        congrArg (· ++ s.lostSlots ++ s.current) (map_slot_set hc pc)
      exact
        { h with
          busy := heq ▸ hbusy
          bound := heq ▸ hbound
          children := fun x hx => by
            rcases List.mem_or_eq_of_mem_set hx with hx | rfl
            · exact h.children x hx
            · exact h.children c (List.mem_of_getElem? hc) }
  | @release i c hc _ =>
      have hperm := slots_eraseIdx hc
      have hbusy := hbusy.perm hperm
      have hnot := (List.nodup_cons.mp hbusy.nodup).1
      exact
        { h with
          busy := hbusy.free
          bound := fun j hj => hbound j (hperm.mem_iff.mp (List.mem_cons_of_mem _ hj))
          children := fun x hx => (h.children x (List.mem_of_mem_eraseIdx hx)).update fun heq => by
            refine hnot (List.mem_append_left _ (List.mem_append_left _ ?_))
            exact heq ▸ List.mem_map_of_mem hx
          parent := hparent.release fun hmem => hnot (List.mem_append_right _ hmem) }
  | @dies i c hc received =>
      have hperm :
          ((s.children.eraseIdx i).map Child.slot ++ (s.lostSlots ++ [c.slot]) ++
            s.current).Perm s.slots :=
        (List.perm_iff_count.mpr fun a => by
          simp only [List.count_append, List.count_cons, List.count_nil]
          omega).trans (slots_eraseIdx hc)
      exact
        { h with
          busy := hbusy.perm hperm
          bound := fun j hj => hbound j (hperm.mem_iff.mp hj)
          children := fun x hx => h.children x (List.mem_of_mem_eraseIdx hx) }

/-! ## Descriptors -/

/-- The descriptor that the parent has still to close. -/
def Sys.toClose (s : Sys) : List Nat :=
  match s.pc with
  | .forking fd _ => [fd]
  | .closing fd => [fd]
  | _ => []

/-- The parent has open what it has gone past and what it has still to close. -/
def FdInv (s : Sys) : Prop := (s.lostFds ++ s.toClose).Perm (s.fds.map Prod.fst)

/-- What is left of the descriptors when one of them is closed. -/
theorem fds_filter {l : List Nat} (hkeys : (s.fds.map Prod.fst).Nodup)
    (h : (l ++ [fd]).Perm (s.fds.map Prod.fst)) :
    l.Perm ((s.fds.filter (·.1 ≠ fd)).map Prod.fst) := by
  have hmem : fd ∈ s.fds.map Prod.fst := h.mem_iff.mp (List.mem_append_right _ List.mem_cons_self)
  obtain ⟨⟨fd', conn⟩, hfd, rfl⟩ := List.mem_map.mp hmem
  have hrest := (perm_cons_filter hkeys hfd).map Prod.fst
  rw [List.map_cons] at hrest
  exact ((List.perm_append_singleton _ _).symm.trans (h.trans hrest)).cons_inv

/-- No effect makes the parent lose a descriptor without its being counted as lost. -/
theorem fdInv_effect (h : SlotInv cfg s) (hfds : FdInv s) (he : Effect cfg s s') : FdInv s' := by
  unfold FdInv at hfds ⊢
  cases he with
  | @accept fd hpc _ _ =>
      simp only [Sys.toClose, hpc, List.append_nil] at hfds ⊢
      rw [List.map_append]
      exact hfds.append_right _
  | exit hpc | fork hpc | forkFails hpc | found hpc _ => simpa only [Sys.toClose, hpc] using hfds
  | @close fd fd' hpc hclient =>
      have hparent := h.parent
      simp only [Sys.toClose, ParentOk, hpc, hclient, List.append_nil] at hfds hparent ⊢
      obtain rfl : fd' = fd := by simpa using hparent
      exact fds_filter h.keys hfds
  | closeNothing hpc _ => simpa only [Sys.toClose, hpc, List.append_nil] using hfds
  | next hpc | talk | release | dies => exact hfds

/-! ## Answers -/

/-- The connection of a child that it has still to answer. -/
def Child.owed (c : Child) : List Nat :=
  match c.pc with
  | .release => []
  | _ => [c.conn]

/-- The connection that the parent has still to hand to a child. -/
def ParentPc.owed : ParentPc → List Nat
  | .forking _ conn => [conn]
  | _ => []

/-- The connections that have been answered and those that may be. -/
def Sys.ledger (s : Sys) : List Nat :=
  s.answered.map (·.2.1) ++ (s.children.flatMap Child.owed ++ s.pc.owed)

/-- Something that came from the connection asks for this answer. -/
def AskedFor (cfg : Config) (received : List (Nat × List UInt8)) (conn : Nat) (text : List UInt8) :
    Prop :=
  ∃ data r, (conn, data) ∈ received ∧ parseRequest data = some r ∧ text = route cfg.index r

structure AnswerInv (cfg : Config) (s : Sys) : Prop where
  asked : ∀ c ∈ s.children, ∀ r, c.pc = .answer r →
    AskedFor cfg s.received c.conn (route cfg.index r)
  answered : ∀ a ∈ s.answered, a.1 = some a.2.1 ∧ AskedFor cfg s.received a.2.1 a.2.2
  once : s.ledger.Nodup
  fresh : ∀ conn ∈ s.ledger, conn < s.conns

theorem AskedFor.append {received : List (Nat × List UInt8)} {text : List UInt8}
    (h : AskedFor cfg received conn text) (more : List (Nat × List UInt8)) :
    AskedFor cfg (received ++ more) conn text := by
  obtain ⟨data, r, hmem, hr, htext⟩ := h
  exact ⟨data, r, List.mem_append_left _ hmem, hr, htext⟩

/-- The ledger keeps its order where nothing is added to it. -/
theorem AnswerInv.ledger_le (h : AnswerInv cfg s) {l : List Nat}
    (hle : ∀ a, l.count a ≤ s.ledger.count a) : l.Nodup ∧ ∀ conn ∈ l, conn < s.conns := by
  refine ⟨List.nodup_iff_count_le_one.mpr
    fun a => (hle a).trans (List.nodup_iff_count_le_one.mp h.once a), ?_⟩
  intro conn hconn
  exact h.fresh conn (List.count_pos_iff.mp
    (Nat.lt_of_lt_of_le (List.count_pos_iff.mpr hconn) (hle conn)))

theorem count_owed_eraseIdx (hc : s.children[i]? = some c) (a : Nat) :
    (s.children.flatMap Child.owed).count a =
      c.owed.count a + ((s.children.eraseIdx i).flatMap Child.owed).count a := by
  rw [((children_perm hc).flatMap_right Child.owed).count_eq, List.flatMap_cons, List.count_append]

theorem count_owed_set (hc : s.children[i]? = some c) (pc : ChildPc) (a : Nat) :
    ((s.children.set i { c with pc }).flatMap Child.owed).count a + c.owed.count a =
      (s.children.flatMap Child.owed).count a + (Child.owed { c with pc }).count a :=
  count_flatMap_set hc (fun _ _ => rfl) a

/-- A child in `respond` goes on. -/
theorem answerInv_talk {pc : ChildPc} {received : List (Nat × List UInt8)}
    {answered : List (Option Nat × Nat × List UInt8)} (hslots : SlotInv cfg s) (h : AnswerInv cfg s)
    (hc : s.children[i]? = some c) (htalk : Talk cfg s c pc received answered) :
    AnswerInv cfg { s with
      children := s.children.set i { c with pc }
      received := s.received ++ received
      answered := s.answered ++ answered } := by
  have hmem := List.mem_of_getElem? hc
  have htarget := (hslots.children c hmem).target
  have hcount : ∀ a, (answered.map (·.2.1)).count a + (Child.owed { c with pc }).count a ≤
      c.owed.count a := by
    intro a
    cases htalk with
    | quiet hpc => simp [Child.owed]
    | asked hpc => simp [Child.owed, hpc]
    | answers hpc => simp [Child.owed, hpc]
  have hledger := h.ledger_le (l := (s.answered ++ answered).map (·.2.1) ++
      ((s.children.set i { c with pc }).flatMap Child.owed ++ s.pc.owed)) fun a => by
    have hset := count_owed_set hc pc a
    have hle := hcount a
    simp only [Sys.ledger, List.map_append, List.count_append]
    omega
  refine ⟨fun x hx r hr => ?_, List.forall_mem_append.mpr ⟨fun a ha => ?_, fun a ha => ?_⟩,
    hledger.1, hledger.2⟩
  · rcases List.mem_or_eq_of_mem_set hx with hx | rfl
    · exact (h.asked x hx r hr).append _
    · cases htalk with
      | quiet => cases hr
      | asked _ hconn hparse =>
          cases hr
          obtain rfl : c.conn = _ := Option.some.inj (htarget.symm.trans hconn)
          exact ⟨_, _, List.mem_append_right _ List.mem_cons_self, hparse, rfl⟩
      | answers => cases hr
  · exact ⟨(h.answered a ha).1, (h.answered a ha).2.append _⟩
  · cases htalk with
    | quiet => cases ha
    | asked => cases ha
    | answers hpc =>
        obtain rfl := List.mem_singleton.mp ha
        exact ⟨htarget, (h.asked c hmem _ hpc).append _⟩

/-- No effect answers a connection twice, or with what was not asked for. -/
theorem answerInv_effect (hslots : SlotInv cfg s) (h : AnswerInv cfg s) (he : Effect cfg s s') :
    AnswerInv cfg s' := by
  have hledger := h.ledger_le (l := s.ledger) fun _ => Nat.le_refl _
  cases he with
  | @accept fd hpc _ _ =>
      have heq : Sys.ledger { s with
          clients := update s.clients s.slot (some fd), fds := s.fds ++ [(fd, s.conns)],
          conns := s.conns + 1, pc := .forking fd s.conns } = s.ledger ++ [s.conns] := by
        simp [Sys.ledger, ParentPc.owed, hpc]
      have hnot : s.conns ∉ s.ledger := fun hmem => Nat.lt_irrefl _ (h.fresh _ hmem)
      refine ⟨h.asked, h.answered, ?_, ?_⟩
      · rw [heq]
        exact h.once.append (List.nodup_singleton _) (List.disjoint_singleton.mpr hnot)
      · rw [heq]
        exact List.forall_mem_append.mpr ⟨fun conn hconn => Nat.lt_succ_of_lt (h.fresh conn hconn),
          List.forall_mem_singleton.mpr (Nat.lt_succ_self _)⟩
  | exit hpc | close hpc _ | closeNothing hpc _ | found hpc _ =>
      simp only [Sys.ledger, hpc] at hledger
      exact ⟨h.asked, h.answered, hledger.1, hledger.2⟩
  | @fork fd conn hpc =>
      have hcount := h.ledger_le (l := s.answered.map (·.2.1) ++
          ((s.children ++ [(⟨s.slot, conn, s.fds, .recv⟩ : Child)]).flatMap Child.owed ++ []))
            fun a => by
        simp [Sys.ledger, ParentPc.owed, Child.owed, hpc]
      refine ⟨List.forall_mem_append.mpr ⟨h.asked, List.forall_mem_singleton.mpr ?_⟩, h.answered,
        hcount.1, hcount.2⟩
      intro r hr
      cases hr
  | @forkFails fd conn hpc =>
      have hcount :=
        h.ledger_le (l := s.answered.map (·.2.1) ++ (s.children.flatMap Child.owed ++ []))
          fun a => by
        simp only [Sys.ledger, List.count_append, List.count_nil]
        omega
      exact ⟨h.asked, h.answered, hcount.1, hcount.2⟩
  | next => exact ⟨h.asked, h.answered, hledger.1, hledger.2⟩
  | talk hc htalk => exact answerInv_talk hslots h hc htalk
  | @release i c hc _ =>
      have hcount := h.ledger_le (l := s.answered.map (·.2.1) ++
          ((s.children.eraseIdx i).flatMap Child.owed ++ s.pc.owed)) fun a => by
        have herase := count_owed_eraseIdx hc a
        simp only [Sys.ledger, List.count_append]
        omega
      exact ⟨fun x hx => h.asked x (List.mem_of_mem_eraseIdx hx), h.answered, hcount.1, hcount.2⟩
  | @dies i c hc received =>
      have hcount := h.ledger_le (l := s.answered.map (·.2.1) ++
          ((s.children.eraseIdx i).flatMap Child.owed ++ s.pc.owed)) fun a => by
        have herase := count_owed_eraseIdx hc a
        simp only [Sys.ledger, List.count_append]
        omega
      exact ⟨fun x hx r hr => (h.asked x (List.mem_of_mem_eraseIdx hx) r hr).append _,
        fun a ha => ⟨(h.answered a ha).1, (h.answered a ha).2.append _⟩, hcount.1, hcount.2⟩

/-! ## Every run -/

structure Inv (cfg : Config) (s : Sys) : Prop where
  slots : SlotInv cfg s
  fds : FdInv s
  answers : AnswerInv cfg s

theorem inv_start : Inv cfg start where
  slots :=
    { slot := cfg.pos
      busy := ⟨List.nodup_nil, fun _ => iff_of_false List.not_mem_nil fun h => h rfl⟩
      bound := fun _ h => absurd h List.not_mem_nil
      children := fun _ h => absurd h List.not_mem_nil
      parent := rfl
      keys := List.nodup_nil }
  fds := .nil
  answers :=
    { asked := fun _ h => absurd h List.not_mem_nil
      answered := fun _ h => absurd h List.not_mem_nil
      once := List.nodup_nil
      fresh := fun _ h => absurd h List.not_mem_nil }

theorem inv_effect (h : Inv cfg s) (he : Effect cfg s s') : Inv cfg s' :=
  ⟨slotInv_effect h.slots he, fdInv_effect h.slots h.fds he, answerInv_effect h.slots h.answers he⟩

theorem inv_of_reachable (h : (server cfg).Reachable s) : Inv cfg s := by
  refine h.invariant (P := Inv cfg) ?_ fun s a s' hinv hs => inv_effect hinv (effect_of_step hs)
  rintro s rfl
  exact inv_start

/-- **Each answer to the one who asked.**  However the parent and the children run, no two
children have the same slot, every answer goes to the connection that its child was forked for
and is what a request that came from there asks for, and no connection is answered twice. -/
theorem serve_answers (h : (server cfg).Reachable s) :
    (s.children.map Child.slot).Nodup ∧
      (∀ a ∈ s.answered, a.1 = some a.2.1 ∧ AskedFor cfg s.received a.2.1 a.2.2) ∧
      (s.answered.map (·.2.1)).Nodup := by
  have hinv := inv_of_reachable h
  exact ⟨hinv.slots.busy.nodup.of_append_left.of_append_left, hinv.answers.answered,
    hinv.answers.once.of_append_left⟩

/-- A server with two slots and no page. -/
def twoSlots : Config := ⟨2, 1, none, by decide⟩

/-- Two clients, of which the second one is answered first.  Their children have the same
descriptor number in their slots. -/
def answerTwo : List Act :=
  [.accept 5, .fork true, .close, .seek, .seek, .accept 5, .fork true, .recv 1 (some getRoot.text),
    .recv 0 (some getRoot.text), .answer 1, .answer 0]

theorem serve_answers_two :
    ∃ s, (server twoSlots).Reachable s ∧
      s.answered.map (fun a => (a.1, a.2.1)) = [(some 1, 1), (some 0, 0)] ∧
      ∀ a ∈ s.answered, AskedFor twoSlots s.received a.2.1 a.2.2 := by
  have hrun :
      ((server twoSlots).run start answerTwo).map (fun s => s.answered.map fun a => (a.1, a.2.1)) =
      some [(some 1, 1), (some 0, 0)] := by decide +kernel
  obtain ⟨s, hs, hanswered⟩ := Option.map_eq_some_iff.mp hrun
  have hreach := System.reachable_of_run (.init rfl) hs
  exact ⟨s, hreach, hanswered, fun a ha => ((serve_answers hreach).2.1 a ha).2⟩

/-! ## What is lost -/

/-- No slot or no descriptor is left for a connection. -/
def Exhausted (cfg : Config) (s : Sys) : Prop :=
  cfg.maxConnections ≤ s.lostSlots.length ∨ cfg.maxFds ≤ s.lostFds.length

/-- A parent that can accept has a slot and a descriptor that are not lost. -/
theorem Inv.not_exhausted (h : Inv cfg s) (hpc : s.pc = .accepting)
    (hlen : s.fds.length < cfg.maxFds) : ¬Exhausted cfg s := by
  have hfree := h.slots.parent
  simp only [ParentOk, hpc] at hfree
  have hlost : ∀ i ∈ s.lostSlots, i ∈ s.slots := fun i hi =>
    List.mem_append_left _ (List.mem_append_right _ hi)
  have hnot : s.slot ∉ s.lostSlots := fun hmem => (h.slots.busy.mem_iff _).mp (hlost _ hmem) hfree
  have hnodup : (s.slot :: s.lostSlots).Nodup :=
    List.nodup_cons.mpr ⟨hnot, h.slots.busy.nodup.of_append_left.of_append_right⟩
  have hsub : s.slot :: s.lostSlots ⊆ List.range cfg.maxConnections := fun i hi => by
    rw [List.mem_range]
    exact (List.mem_cons.mp hi).elim (· ▸ h.slots.slot) fun hi => h.slots.bound i (hlost i hi)
  have hslots := (List.subperm_of_subset hnodup hsub).length_le
  have hfds := h.fds.length_eq
  simp only [List.length_cons, List.length_range, List.length_append,
    List.length_map] at hslots hfds
  rintro (hfull | hfull) <;> omega

/-- What is lost is never found again, and a server that has lost all accepts no
more. -/
theorem lost_effect (h : Inv cfg s) (he : Effect cfg s s') :
    s.lostSlots <+: s'.lostSlots ∧ s.lostFds <+: s'.lostFds ∧
      (Exhausted cfg s → s'.conns = s.conns) := by
  cases he with
  | accept hpc _ hlen =>
      exact ⟨List.prefix_rfl, List.prefix_rfl, fun hfull => absurd hfull (h.not_exhausted hpc hlen)⟩
  | forkFails | dies => exact ⟨List.prefix_append _ _, List.prefix_rfl, fun _ => rfl⟩
  | closeNothing => exact ⟨List.prefix_rfl, List.prefix_append _ _, fun _ => rfl⟩
  | exit | fork | close | found | next | talk | release =>
      exact ⟨List.prefix_rfl, List.prefix_rfl, fun _ => rfl⟩

/-- **Lost for good.**  A slot whose child has died or could not be forked is never free again,
and a descriptor that the parent has gone past is never closed; when all slots are lost, or as
many descriptors as can be open, the server accepts no further connection. -/
theorem lost_for_ever (h : (server cfg).Reachable s) {as : List Act}
    (hrun : (server cfg).run s as = some s') :
    (∀ i ∈ s.lostSlots, s'.clients i ≠ none) ∧ s.lostFds ⊆ s'.fds.map Prod.fst ∧
      (Exhausted cfg s → s'.conns = s.conns) := by
  obtain ⟨hinv, hslots, hfds, hconns⟩ :=
    System.invariant_of_run
      (I := fun t => Inv cfg t ∧ s.lostSlots <+: t.lostSlots ∧ s.lostFds <+: t.lostFds ∧
        (Exhausted cfg s → t.conns = s.conns))
      (fun t a t' ⟨hinv, hslots, hfds, hconns⟩ hs => by
        have he := effect_of_step hs
        obtain ⟨hslots', hfds', hconns'⟩ := lost_effect hinv he
        have hmore : Exhausted cfg s → Exhausted cfg t :=
          Or.imp (·.trans hslots.length_le) (·.trans hfds.length_le)
        exact ⟨inv_effect hinv he, hslots.trans hslots', hfds.trans hfds',
          fun hfull => (hconns' (hmore hfull)).trans (hconns hfull)⟩)
      ⟨inv_of_reachable h, List.prefix_rfl, List.prefix_rfl, fun _ => rfl⟩ hrun
  refine ⟨fun i hi => (hinv.slots.busy.mem_iff i).mp ?_, fun fd hfd => hinv.fds.mem_iff.mp ?_,
    hconns⟩
  · exact List.mem_append_left _ (List.mem_append_right _ (hslots.subset hi))
  · exact List.mem_append_left _ (hfds.subset hfd)

/-- A child that gives its slot back before the parent has closed its descriptor. -/
def fastChild : List Act := [.accept 5, .fork true, .recv 0 none, .release 0, .close]

theorem lost_for_ever_fast :
    ∃ s, (server twoSlots).Reachable s ∧ s.lostFds = [5] ∧
      ∀ as s', (server twoSlots).run s as = some s' → s'.conns = 1 := by
  have hrun : ((server twoSlots).run start fastChild).map (fun s => (s.lostFds, s.conns)) =
      some ([5], 1) := by
    decide +kernel
  obtain ⟨s, hs, heq⟩ := Option.map_eq_some_iff.mp hrun
  obtain ⟨hlost, hconns⟩ := Prod.mk.inj heq
  have hreach := System.reachable_of_run (.init rfl) hs
  refine ⟨s, hreach, hlost, fun as s' hrun' => ?_⟩
  have hfull : Exhausted twoSlots s := .inr (by rw [hlost]; decide)
  exact ((lost_for_ever hreach hrun').2.2 hfull).trans hconns

/-! ## What is not lost -/

def ParentPc.isClosing : ParentPc → Bool
  | .closing _ => true
  | _ => false

/-- Children can be forked, read nothing that they cannot parse and are not killed, and give
back their slots after the parent has closed its descriptors. -/
def Careful (s : Sys) : Act → Prop
  | .fork ok => ok = true
  | .recv _ (some data) => data = [] ∨ parseRequest data ≠ none
  | .release i => s.pc.isClosing = true → s.children[i]?.map Child.slot ≠ some s.slot
  | .dies _ => False
  | _ => True

instance : (s : Sys) → (a : Act) → Decidable (Careful s a)
  | _, .fork ok => inferInstanceAs (Decidable (ok = true))
  | _, .recv _ (some data) => inferInstanceAs (Decidable (data = [] ∨ parseRequest data ≠ none))
  | s, .release i =>
      inferInstanceAs (Decidable (s.pc.isClosing = true →
        s.children[i]?.map Child.slot ≠ some s.slot))
  | _, .dies _ => .isFalse id
  | _, .recv _ none => .isTrue trivial
  | _, .accept _ => .isTrue trivial
  | _, .acceptFails => .isTrue trivial
  | _, .close => .isTrue trivial
  | _, .seek => .isTrue trivial
  | _, .answer _ => .isTrue trivial

structure Kept (s : Sys) : Prop where
  slots : s.lostSlots = []
  fds : s.lostFds = []
  closing : ∀ fd, s.pc = .closing fd → s.clients s.slot ≠ none

/-- A child that lives on after `recv` keeps its slot. -/
theorem kept_recvStep (h : Kept s) {data : Option (List UInt8)} (ha : Careful s (.recv i data)) :
    Kept (recvStep s i c data) := by
  unfold recvStep
  split
  case h_1 conn data _ =>
    dsimp only
    split
    · exact ⟨h.slots, h.fds, h.closing⟩
    · rename_i hne
      split
      · rename_i hnone
        exact (ha.resolve_left hne hnone).elim
      · exact ⟨h.slots, h.fds, h.closing⟩
  case h_2 => exact ⟨h.slots, h.fds, h.closing⟩

/-- One careful step loses nothing. -/
theorem kept_step {a : Act} (hinv : Inv cfg s) (h : Kept s) (ha : Careful s a)
    (hs : step cfg s a = some s') : Kept s' := by
  cases a with
  | accept fd | acceptFails =>
      simp only [step, Option.ite_none_right_eq_some, Option.some.injEq] at hs
      obtain ⟨-, rfl⟩ := hs
      exact ⟨h.slots, h.fds, fun _ hpc => by cases hpc⟩
  | fork ok =>
      obtain rfl : ok = true := ha
      have hparent := hinv.slots.parent
      simp only [step] at hs
      split at hs
      case h_1 fd conn hpc =>
        cases hs
        simp only [ParentOk, hpc] at hparent
        exact ⟨h.slots, h.fds, fun _ _ => Option.ne_none_iff_exists'.mpr ⟨fd, hparent.1⟩⟩
      case h_2 => cases hs
  | close =>
      simp only [step] at hs
      split at hs
      case h_1 fd hpc =>
        split at hs <;> cases hs
        case h_1 => exact ⟨h.slots, h.fds, fun _ hpc => by cases hpc⟩
        case h_2 hnone => exact absurd hnone (h.closing fd hpc)
      case h_2 => cases hs
  | seek =>
      simp only [step, Option.ite_none_right_eq_some] at hs
      obtain ⟨hpc, hs⟩ := hs
      split at hs <;> cases hs
      · exact ⟨h.slots, h.fds, fun _ hpc => by cases hpc⟩
      · exact ⟨h.slots, h.fds, fun _ hclosing => by cases hpc.symm.trans hclosing⟩
  | recv i data =>
      simp only [step] at hs
      split at hs
      case h_1 c hc =>
        simp only [Option.ite_none_right_eq_some, Option.some.injEq] at hs
        obtain ⟨-, rfl⟩ := hs
        exact kept_recvStep h ha
      case h_2 => cases hs
  | answer i =>
      simp only [step] at hs
      split at hs
      case h_1 c hc =>
        split at hs <;> cases hs
        exact ⟨h.slots, h.fds, h.closing⟩
      case h_2 => cases hs
  | release i =>
      simp only [step] at hs
      split at hs
      case h_1 c hc =>
        simp only [Option.ite_none_right_eq_some, Option.some.injEq] at hs
        obtain ⟨-, rfl⟩ := hs
        refine ⟨h.slots, h.fds, fun fd hpc => ?_⟩
        have hne : s.slot ≠ c.slot := fun heq => ha (by rw [hpc]; rfl) (by rw [hc, heq]; rfl)
        exact fun hnone => h.closing fd hpc ((update_of_ne hne ..).symm.trans hnone)
      case h_2 => cases hs
  | dies i => exact ha.elim

/-- **Nothing else is lost.**  If every child can be forked and lives until it gives its slot
back, and does so after the parent has closed its descriptor, then each slot that is taken is
that of a child or the one that the parent is filling, and the parent has at most one connection
open. -/
theorem nothing_lost {as : List Act} (hcareful : (server cfg).Meets Careful start as)
    (hrun : (server cfg).run start as = some s) :
    (∀ i, s.clients i ≠ none ↔ i ∈ s.children.map Child.slot ++ s.current) ∧ s.fds.length ≤ 1 := by
  have hkept : Kept s ∧ Inv cfg s := hcareful.invariant (I := fun t => Kept t ∧ Inv cfg t)
    (fun t a t' ⟨hkept, hinv⟩ ha hs =>
      ⟨kept_step hinv hkept ha hs, inv_effect hinv (effect_of_step hs)⟩)
    ⟨⟨rfl, rfl, fun _ h => by cases h⟩, inv_start⟩ hrun
  obtain ⟨hkept, hinv⟩ := hkept
  constructor
  · intro i
    rw [← hinv.slots.busy.mem_iff i, Sys.slots, hkept.slots, List.append_nil]
  · have hlen := hinv.fds.length_eq
    rw [hkept.fds, List.nil_append, List.length_map] at hlen
    rw [← hlen, Sys.toClose]
    split <;> simp

/-- A client that is answered by a child in no hurry. -/
def slowChild : List Act :=
  [.accept 5, .fork true, .close, .recv 0 (some getRoot.text), .answer 0, .release 0,
    .seek, .accept 5]

theorem nothing_lost_slow :
    ∃ s, (server twoSlots).run start slowChild = some s ∧ s.conns = 2 ∧ s.fds.length ≤ 1 := by
  have hrun : ((server twoSlots).run start slowChild).map Sys.conns = some 2 := by decide +kernel
  have hcareful : (server twoSlots).Meets Careful start slowChild := by decide +kernel
  obtain ⟨s, hs, hconns⟩ := Option.map_eq_some_iff.mp hrun
  exact ⟨s, hs, hconns, (nothing_lost hcareful hs).2⟩

end Linuxyz.Httpd
