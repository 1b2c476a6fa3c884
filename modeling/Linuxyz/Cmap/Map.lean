import Linuxyz.Lib.Chain

/-!
# Linuxyz.Cmap.Map

The hash map of `data-hashmap-concurrent/cmap.c`: buckets of singly linked
entries that are taken into use and given back in place.

`malloc` hands out addresses in increasing order and does not fail.  What it
leaves in the array of buckets is a parameter of `cmapAlloc`, which reads the
`data` pointer of every bucket before it writes it.  A pointer to no entry is
a fault when it is followed, and `none` is a call that faults or does not
return.  `call` is what the calls do to the entries, and `lockedCall` adds the
mutexes of the buckets.
-/

namespace Linuxyz.Cmap

abbrev Addr := Nat

/-- `struct BOGUS_DATA`. -/
structure Entry where
  index : UInt64
  value : UInt64
  inUse : UInt64
  next : Option Addr
deriving DecidableEq

/-- One round of the FNV-1 loop. -/
def hashByte (hval byte : UInt64) : UInt64 :=
  let hval :=
    hval + ((hval <<< 1) + (hval <<< 4) + (hval <<< 5) + (hval <<< 7) + (hval <<< 8) +
      (hval <<< 40))
  hval ^^^ byte

/-- `_hashfunc` on the eight bytes of an index, least significant first. -/
def hashfunc (index : UInt64) (div : Nat) : Nat :=
  let bytes := (List.range 8).map fun i => (index >>> UInt64.ofNat (8 * i)) &&& 0xff
  (bytes.foldl hashByte 0xcbf29ce484222325).toNat % div

/-- `struct BOGUS_CMAP` with the entries it points to. -/
structure BogusCmap where
  heap : Addr → Option Entry
  nextAddr : Addr
  buck : Nat → Option Addr
  buckSize : Nat

namespace BogusCmap

/-- The bucket of a key. -/
def idx (m : BogusCmap) (key : UInt64) : Nat := hashfunc key m.buckSize

/-- A store of a whole entry. -/
def store (m : BogusCmap) (a : Addr) (e : Entry) : BogusCmap :=
  { m with heap := Function.update m.heap a (some e) }

/-- An entry from `malloc` put at the head of bucket `i`. -/
def push (m : BogusCmap) (i : Nat) (index value inUse : UInt64) : BogusCmap :=
  { m with
    heap := Function.update m.heap m.nextAddr (some ⟨index, value, inUse, m.buck i⟩)
    nextAddr := m.nextAddr + 1
    buck := Function.update m.buck i (some m.nextAddr) }

@[simp] theorem store_self (m : BogusCmap) (a : Addr) (e : Entry) : (m.store a e).heap a = some e :=
  Function.update_self ..

theorem store_of_ne (m : BogusCmap) (e : Entry) (h : x ≠ a) : (m.store a e).heap x = m.heap x :=
  Function.update_of_ne h ..

theorem push_self (m : BogusCmap) (i : Nat) (index value inUse : UInt64) :
    (m.push i index value inUse).heap m.nextAddr = some ⟨index, value, inUse, m.buck i⟩ :=
  Function.update_self ..

theorem push_of_ne (m : BogusCmap) (i : Nat) (index value inUse : UInt64) (h : x ≠ m.nextAddr) :
    (m.push i index value inUse).heap x = m.heap x := Function.update_of_ne h ..

/-- Bounds every loop over a list of entries. -/
def fuel (m : BogusCmap) : Nat := m.nextAddr + 1

end BogusCmap

/-- `cmap_alloc(buck_size, data_size)`; `fresh` is what `malloc` leaves in the
`data` pointers of the buckets. -/
def cmapAlloc (buckSize dataSize : Nat) (fresh : Nat → Option Addr) : BogusCmap :=
  (List.range buckSize).foldl
    (fun m i => (List.range dataSize).foldl (fun m _ => m.push i 0 0 0) m)
    { heap := fun _ => none, nextAddr := 0, buck := fresh, buckSize := buckSize }

/-! ## the calls -/

/-- The loop of `cmap_set`: the first entry that is not in use. -/
def searchFree (m : BogusCmap) (i : Nat) : Option (Option (Addr × Entry)) :=
  walk Entry.next m.heap (fun e => e.inUse == 0) m.fuel (m.buck i)

/-- The loop of `cmap_get` and `cmap_del`: the first entry in use with the key. -/
def searchKey (m : BogusCmap) (key : UInt64) : Option (Option (Addr × Entry)) :=
  walk Entry.next m.heap (fun e => e.inUse != 0 && e.index == key) m.fuel (m.buck (m.idx key))

/-- `cmap_set(cm, val)`. -/
def cmapSet (m : BogusCmap) (key value : UInt64) : Option (BogusCmap × Int) :=
  (searchFree m (m.idx key)).map fun
    | none => (m.push (m.idx key) key value 1, m.idx key)
    | some (a, e) => (m.store a { e with index := key, value := value, inUse := 1 }, m.idx key)

/-- A callback of `cmap_get`, as what it does to the entry it is given. -/
abbrev Callback := Entry → Entry

/-- `cmap_get(cm, key, ret, cb)`: the map, the return value and the entry passed
to the callback; `none` for `cb` is a call with `ret` or `cb` `NULL`. -/
def cmapGet (m : BogusCmap) (key : UInt64) (cb : Option Callback) :
    Option (BogusCmap × Int × Option Entry) :=
  (searchKey m key).map fun
    | none => (m, -1, none)
    | some (a, e) =>
        match cb with
        | none => (m, m.idx key, none)
        | some cb => (m.store a (cb e), m.idx key, some e)

/-- `cmap_del(cm, key)`: the entry is cleared but for its link. -/
def cmapDel (m : BogusCmap) (key : UInt64) : Option (BogusCmap × Int) :=
  (searchKey m key).map fun
    | none => (m, -1)
    | some (a, e) => (m.store a ⟨0, 0, 0, e.next⟩, m.idx key)

/-- A call on the map. -/
inductive Call where
  | set (key value : UInt64)
  | get (key : UInt64) (cb : Option Callback)
  | del (key : UInt64)

/-- What a call returns, and the entry it passed to its callback. -/
structure Reply where
  ret : Int
  passed : Option Entry
deriving DecidableEq

def call (m : BogusCmap) : Call → Option (BogusCmap × Reply)
  | .set key value => (cmapSet m key value).map fun (m, ret) => (m, ⟨ret, none⟩)
  | .get key cb => (cmapGet m key cb).map fun (m, ret, passed) => (m, ⟨ret, passed⟩)
  | .del key => (cmapDel m key).map fun (m, ret) => (m, ⟨ret, none⟩)

def Call.key : Call → UInt64
  | .set key _ => key
  | .get key _ => key
  | .del key => key

/-! ## mutexes -/

/-- A map with the mutexes that are locked, by bucket. -/
structure Shared where
  map : BogusCmap
  held : Nat → Bool

/-- What the unlock of `buck[-1].lock` does.  It writes in front of the array, where
`malloc` keeps its own words and `struct BOGUS_CMAP` stands, so nothing is known of the
map that it leaves; `none` where it does not return. -/
abbrev Stray := Shared → Option Shared

/-- `pthread_mutex_unlock(&cm->buck[idx].lock)`. -/
def unlock (stray : Stray) (s : Shared) : Int → Option Shared
  | .ofNat i => some { s with held := Function.update s.held i false }
  | .negSucc _ => stray s

/-- The mutex of bucket `i` is locked, and the map is `m`. -/
def Shared.inside (s : Shared) (m : BogusCmap) (i : Nat) : Shared :=
  ⟨m, Function.update s.held i true⟩

/-- A call with its mutex; it never returns when the mutex is never unlocked.
The index it unlocks is the one it returns. -/
def lockedCall (stray : Stray) (s : Shared) (c : Call) : Option (Shared × Reply) :=
  if s.held (s.map.idx c.key) then none
  else
    (call s.map c).bind fun (m, r) =>
      (unlock stray (s.inside m (s.map.idx c.key)) r.ret).map fun s => (s, r)

/-- `cmap_alloc` with its mutexes. -/
def newMap (buckSize dataSize : Nat) (fresh : Nat → Option Addr) : Shared :=
  ⟨cmapAlloc buckSize dataSize fresh, fun _ => false⟩

/-! ## cmap_free -/

/-- One bucket of `cmap_free`. -/
def freeBucket (m : BogusCmap) (i : Nat) : Option (BogusCmap × List Addr) :=
  (freeAll Entry.next m.fuel m.heap (m.buck i)).map fun (heap, freed) =>
    ({ m with heap := heap, buck := Function.update m.buck i none }, freed)

/-- The buckets of `cmap_free`, with the addresses passed to `free`. -/
def freeBuckets (m : BogusCmap) : List Nat → Option (BogusCmap × List Addr)
  | [] => some (m, [])
  | i :: is =>
      (freeBucket m i).bind fun (m, freed) =>
        (freeBuckets m is).map fun (m, freed') => (m, freed ++ freed')

/-- `cmap_free(cm)`. -/
def cmapFree (m : BogusCmap) : Option (BogusCmap × List Addr) :=
  freeBuckets m (List.range m.buckSize)

/-! ## the callbacks -/

/-- `_inc_func`. -/
def incFunc : Callback := fun e => { e with value := e.value + e.index }

/-- `_dec_func`. -/
def decFunc : Callback := fun e => { e with value := e.value - e.index }

/-- A callback that leaves the key and the link of its entry alone. -/
def Callback.Keeps (cb : Callback) : Prop := ∀ e, (cb e).index = e.index ∧ (cb e).next = e.next

theorem keeps_incFunc : Callback.Keeps incFunc := fun _ => ⟨rfl, rfl⟩

theorem keeps_decFunc : Callback.Keeps decFunc := fun _ => ⟨rfl, rfl⟩

/-- The callback of a call, if it makes one, keeps key and link. -/
def Call.Keeps : Call → Prop
  | .get _ (some cb) => cb.Keeps
  | _ => True

end Linuxyz.Cmap
