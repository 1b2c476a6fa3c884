import Linuxyz.Lib.ListHead
import Linuxyz.Lib.System

/-!
# Linuxyz.Rcu.Map

The RCU hash map of `ksync-rcu-cmap/rcucmap.c`, as a transition system over
its heap.

* Writers: `updateCcmap` and `removeCcmap` are the bucket's locked section, one
  step each.  A section makes a single store to a `next` pointer that readers
  can come to, so a reader cannot tell it from a sequence of stores.  The node
  it unlinks is passed to `call_rcu` in a later step.
* Readers: a section between `rcu_read_lock` and `rcu_read_unlock` walks
  through `get_ccmap_rcu` step by step; any number of sections is open at once.
* Reclamation: `call_rcu` records the sections open at the call, and the
  callback, which frees the node, can run once all of them have ended.

Nodes are numbered in the order of their allocation and numbers are not used
again, so that reading a node after it was freed is a visible fault.  `none`
is a call that faults or does not return.
-/

namespace Linuxyz.Rcu

open ListHead

/-- `_hashfunc`. -/
def hashfunc (key bcount : UInt32) : UInt32 :=
  let hash := ((key >>> 16) ^^^ key) * 0x45d9f3b
  let hash := ((hash >>> 16) ^^^ hash) * 0x45d9f3b
  let hash := (hash >>> 16) ^^^ hash
  hash % bcount

/-- A pointer to a `struct list_head`: that of a bucket or that in a node. -/
abbrev Ptr := Link UInt32 Nat

/-- Where a reader is in `get_ccmap_rcu`. -/
inductive Pc where
  /-- about to load the first element -/
  | start
  /-- at the loop test, and the comparison of the key if it is a node -/
  | test (p : Ptr)
  /-- about to load the element after `n` -/
  | advance (n : Nat)
  /-- returned node `n` -/
  | found (n : Nat)
  /-- returned `NULL` -/
  | notFound
deriving DecidableEq

/-- An open read-side section that looks for `key`. -/
structure Section where
  key : Int32
  pc : Pc
deriving DecidableEq

/-- The map and everybody at work on it.  `pending` are the unlinked nodes
whose writer is about to pass them to `call_rcu`, `callbacks` those passed,
with the sections each waits for, and `freed` the calls of `kfree`. -/
structure State where
  count : UInt32
  links : Links UInt32 Nat
  key : Nat → Int32
  value : Nat → Int32
  nextId : Nat
  pending : List Nat
  callbacks : List (Nat × List Nat)
  freed : List Nat
  sections : Nat → Option Section
  nextSection : Nat

/-- `make_ccmap`. -/
def makeCcmap (bcount : UInt32) : State where
  count := bcount
  links := .init
  key := fun _ => 0
  value := fun _ => 0
  nextId := 0
  pending := []
  callbacks := []
  freed := []
  sections := fun _ => none
  nextSection := 0

namespace State

/-- The bucket of a key. -/
def idx (s : State) (key : Int32) : UInt32 := hashfunc key.toUInt32 s.count

/-- `n->key`. -/
def readKey (s : State) (n : Nat) : Option Int32 := if n ∈ s.freed then none else some (s.key n)

/-- `n->_node.next`. -/
def readNext (s : State) (n : Nat) : Option Ptr :=
  if n ∈ s.freed then none else some (s.links.next (.node n))

/-- The sections that are open. -/
def openSections (s : State) : List Nat :=
  (List.range s.nextSection).filter fun i => (s.sections i).isSome

end State

/-! ## writers -/

/-- `list_for_each_entry` up to the node with the given key. -/
def search (s : State) (key : Int32) : Nat → Ptr → Option (Option Nat)
  | 0, _ => none
  | _ + 1, .head b => if b = s.idx key then some none else none
  | fuel + 1, .node n =>
      (s.readKey n).bind fun k =>
        if k = key then some (some n) else (s.readNext n).bind (search s key fuel)

/-- The search that opens both locked sections. -/
def searchBucket (s : State) (key : Int32) : Option (Option Nat) :=
  search s key (s.nextId + 1) (s.links.next (.head (s.idx key)))

/-- `update_ccmap` up to `call_rcu`, with its return value; `alloc` is the
outcome of `kzalloc`. -/
def updateCcmap (s : State) (key value : Int32) (alloc : Bool) : Option (State × Int) :=
  (searchBucket s key).bind fun oldN =>
    if !alloc then some (s, -1)
    else
      let newN := s.nextId
      match oldN with
      | none =>
          some ({ s with
            links := listAddRcu s.links (.node newN) (.head (s.idx key))
            key := Function.update s.key newN key
            value := Function.update s.value newN value
            nextId := s.nextId + 1 }, (s.idx key).toNat)
      | some oldN =>
          -- the copy of the whole node, then the new value
          (listReplaceRcu s.links (.node oldN) (.node newN)).map fun links =>
            ({ s with
              links := links
              key := Function.update s.key newN (s.key oldN)
              value := Function.update s.value newN value
              nextId := s.nextId + 1
              pending := oldN :: s.pending }, (s.idx key).toNat)

/-- `remove_ccmap` up to `call_rcu`, with its return value. -/
def removeCcmap (s : State) (key : Int32) : Option (State × Int) :=
  (searchBucket s key).bind fun foundN =>
    match foundN with
    | none => some (s, -1)
    | some foundN =>
        (listDelRcu s.links (.node foundN)).map fun links =>
          ({ s with links := links, pending := foundN :: s.pending }, (s.idx key).toNat)

/-- `call_rcu(&n->_rcu, _ccmap_cb)` by the writer that unlinked `n`. -/
def callRcu (s : State) (n : Nat) : Option State :=
  if n ∈ s.pending then
    some { s with pending := s.pending.erase n, callbacks := s.callbacks ++ [(n, s.openSections)] }
  else none

/-- `_ccmap_cb` for one of the nodes passed to `call_rcu`, after its grace
period. -/
def ccmapCb (s : State) (i : Nat) : Option State :=
  (s.callbacks[i]?).bind fun (n, waits) =>
    if waits.all fun j => (s.sections j).isNone then
      some { s with callbacks := s.callbacks.eraseIdx i, freed := s.freed ++ [n] }
    else none

/-! ## readers -/

/-- The next step of `get_ccmap_rcu` in one section. -/
def getStep (s : State) (r : Section) : Option Section :=
  match r.pc with
  | .start => some { r with pc := .test (s.links.next (.head (s.idx r.key))) }
  | .test (.head b) => if b = s.idx r.key then some { r with pc := .notFound } else none
  | .test (.node n) =>
      (s.readKey n).map fun k =>
        if k = r.key then { r with pc := .found n } else { r with pc := .advance n }
  | .advance n => (s.readNext n).map fun p => { r with pc := .test p }
  | .found _ => none
  | .notFound => none

@[simp] theorem getStep_start (s : State) (key : Int32) :
    getStep s ⟨key, .start⟩ = some ⟨key, .test (s.links.next (.head (s.idx key)))⟩ := rfl

@[simp] theorem getStep_head (s : State) (key : Int32) (b : UInt32) :
    getStep s ⟨key, .test (.head b)⟩ = if b = s.idx key then some ⟨key, .notFound⟩ else none := rfl

@[simp] theorem getStep_node (s : State) (key : Int32) (n : Nat) :
    getStep s ⟨key, .test (.node n)⟩ =
      (s.readKey n).map fun k => if k = key then ⟨key, .found n⟩ else ⟨key, .advance n⟩ := rfl

@[simp] theorem getStep_advance (s : State) (key : Int32) (n : Nat) :
    getStep s ⟨key, .advance n⟩ = (s.readNext n).map fun p => ⟨key, .test p⟩ := rfl

/-- `get_ccmap_rcu` has returned. -/
def Pc.done : Pc → Bool
  | .found _ => true
  | .notFound => true
  | _ => false

/-- `get_ccmap_rcu` left alone: its steps one after another. -/
def getLoop (s : State) : Nat → Section → Option (Option Nat)
  | 0, _ => none
  | fuel + 1, r =>
      match r.pc with
      | .found n => some (some n)
      | .notFound => some none
      | _ => (getStep s r).bind (getLoop s fuel)

theorem getLoop_of_not_done (s : State) (fuel : Nat) {r : Section} (h : r.pc.done = false) :
    getLoop s (fuel + 1) r = (getStep s r).bind (getLoop s fuel) := by
  obtain ⟨key, pc⟩ := r
  cases pc with
  | start => rfl
  | test p => rfl
  | advance n => rfl
  | found n => cases h
  | notFound => cases h

/-- `get_ccmap_rcu` with nobody else running. -/
def getCcmapRcu (s : State) (key : Int32) : Option (Option Nat) :=
  getLoop s (2 * s.nextId + 3) ⟨key, .start⟩

/-! ## the system -/

inductive Act where
  | update (key value : Int32) (alloc : Bool)
  | remove (key : Int32)
  | callRcu (n : Nat)
  | callback (i : Nat)
  | readLock (key : Int32)
  | readStep (i : Nat)
  | readUnlock (i : Nat)
deriving DecidableEq

def step (s : State) : Act → Option State
  | .update key value alloc => (updateCcmap s key value alloc).map (·.1)
  | .remove key => (removeCcmap s key).map (·.1)
  | .callRcu n => callRcu s n
  | .callback i => ccmapCb s i
  | .readLock key =>
      some { s with
        sections := Function.update s.sections s.nextSection (some ⟨key, .start⟩)
        nextSection := s.nextSection + 1 }
  | .readStep i =>
      (s.sections i).bind fun r =>
        (getStep s r).map fun r => { s with sections := Function.update s.sections i (some r) }
  | .readUnlock i =>
      (s.sections i).bind fun r =>
        if r.pc.done then some { s with sections := Function.update s.sections i none } else none

/-- The map with its writers, readers and callbacks. -/
def rcuMap (bcount : UInt32) : System State Act where
  init := fun s => s = makeCcmap bcount
  step := step

end Linuxyz.Rcu
