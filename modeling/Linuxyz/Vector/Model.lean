import Mathlib.Algebra.Ring.Nat
import Mathlib.Algebra.Ring.Int.Defs
import Linuxyz.Lib.Heap
import Linuxyz.Lib.System

/-!
# Linuxyz.Vector.Model

The vectors of `data-vector`: an array of integers or of strings that grows by
`realloc` with every element that is pushed, and shrinks with every one that is
erased.  The caller keeps the number of elements.

Arrays and strings are blocks of two heaps.  An array's slot is `none` until it
is written.  A fault (`none`) is an access to a block that is not live or outside
of a block, a read of a slot that was not written, a `free` of a block that is not
live, and an `int` that overflows; allocations succeed where their size is one that
`malloc` can be asked for.
-/

namespace Linuxyz.Vector

def intMax : Nat := 2 ^ 31 - 1

/-- `PTRDIFF_MAX`, the largest size that `malloc` takes. -/
def ptrdiffMax : Nat := 2 ^ 63 - 1

/-- A `size_t` stored in an `int`. -/
def toInt (n : Nat) : Int :=
  if n % 2 ^ 32 < 2 ^ 31 then (n % 2 ^ 32 : Nat) else (n % 2 ^ 32 : Nat) - 2 ^ 32

/-- An `int` used as a `size_t`. -/
def toSize (i : Int) : Nat := (i % 2 ^ 64).toNat

/-! ## Arrays -/

section Arrays

variable {α : Type}

/-- An array of `n` slots with what fits of another one. -/
def resize (n : Nat) (slots : List (Option α)) : List (Option α) :=
  slots.take n ++ List.replicate (n - slots.length) none

def getSlot (h : Heap (List (Option α))) (a i : Nat) : Option α := do
  let slots ← h.block a
  (slots[i]?).join

def setSlot (h : Heap (List (Option α))) (a i : Nat) (x : α) : Option (Heap (List (Option α))) := do
  let slots ← h.block a
  if i < slots.length then h.store a (slots.set i (some x)) else none

/-- The array for one element more: `malloc` for the first one, `realloc` from then
on. -/
def grow (h : Heap (List (Option α))) (vec count : Nat) : Option (Heap (List (Option α)) × Nat) :=
  if intMax ≤ count then none
  else if count = 0 then some (h.malloc [none], h.next)
  else h.realloc vec (resize (count + 1))

/-- The end of an erase: the array for one element less, with the result. -/
def shrink (h : Heap (List (Option α))) (vec count : Nat) :
    Option (Heap (List (Option α)) × Nat × Int) :=
  if count - 1 = 0 then (h.free vec).map fun h => (h, vec, 1)
  else (h.realloc vec (resize (count - 1))).map fun (h, vec) => (h, vec, 0)

end Arrays

/-! ## Integers -/

/-- `VECTOR_PushBackInt` -/
def pushBackInt (h : Heap (List (Option Int32))) (vec count : Nat) (newEl : Int32) :
    Option (Heap (List (Option Int32)) × Nat) := do
  let (h, vecTmp) ← grow h vec count
  let h ← setSlot h vecTmp count newEl
  some (h, vecTmp)

/-- A turn of the loop of `VECTOR_EraseInt`. -/
def shiftInt (vec index : Nat) (h : Heap (List (Option Int32))) (i : Nat) :
    Option (Heap (List (Option Int32))) :=
  if i ≤ index then some h
  else do
    let x ← getSlot h vec i
    setSlot h vec (i - 1) x

/-- `VECTOR_EraseInt`, with its result. -/
def eraseInt (h : Heap (List (Option Int32))) (vec count : Nat) (index : Int) :
    Option (Heap (List (Option Int32)) × Nat × Int) :=
  if count = 0 then some (h, vec, -1)
  else if index ≥ count ∨ index < 0 then some (h, vec, -2)
  else do
    let h ← (List.range count).foldlM (shiftInt vec index.toNat) h
    shrink h vec count

/-! ## Strings -/

/-- The string in a block, up to its terminator. -/
def readString (block : List UInt8) : Option (List UInt8) :=
  if 0 ∈ block then some (block.takeWhile (· ≠ 0)) else none

/-- A copy of a string in a new block of `size` bytes, cleared before. -/
def copyString (strings : Heap (List UInt8)) (s : List UInt8) (size : Nat) :
    Option (Heap (List UInt8) × Nat) :=
  if size ≤ ptrdiffMax ∧ s.length < size then
    some (strings.malloc (s ++ List.replicate (size - s.length) 0), strings.next)
  else none

structure Mem where
  arrays : Heap (List (Option Nat))
  strings : Heap (List UInt8)

/-- `VECTOR_PushBackString`; `newEl` is the string without its terminator. -/
def pushBackString (m : Mem) (vec rowc : Nat) (newEl : List UInt8) : Option (Mem × Nat) := do
  let (arrays, vecTmp) ← grow m.arrays vec rowc
  let (strings, p) ← copyString m.strings newEl (toSize (toInt newEl.length + 1))
  let arrays ← setSlot arrays vecTmp rowc p
  some (⟨arrays, strings⟩, vecTmp)

/-- A turn of the loop of `VECTOR_EraseString`: the string at the index is freed,
those behind it move, and the last one is copied. -/
def eraseAt (vec rowc index : Nat) (m : Mem) (i : Nat) : Option Mem :=
  if i < index then some m
  else do
    let p ← getSlot m.arrays vec i
    if i = index then
      let strings ← m.strings.free p
      some ⟨m.arrays, strings⟩
    else if i ≠ rowc - 1 then
      let arrays ← setSlot m.arrays vec (i - 1) p
      some ⟨arrays, m.strings⟩
    else
      let block ← m.strings.block p
      let s ← readString block
      let (strings, newLast) ← copyString m.strings s (toSize (toInt (s.length + 1)))
      let strings ← strings.free p
      let arrays ← setSlot m.arrays vec (i - 1) newLast
      some ⟨arrays, strings⟩

/-- `VECTOR_EraseString`, with its result. -/
def eraseString (m : Mem) (vec rowc : Nat) (index : Int) : Option (Mem × Nat × Int) :=
  if rowc = 0 then some (m, vec, -1)
  else if index ≥ rowc ∨ index < 0 then some (m, vec, -2)
  else do
    let m ← (List.range rowc).foldlM (eraseAt vec rowc index.toNat) m
    let (arrays, vec, r) ← shrink m.arrays vec rowc
    some (⟨arrays, m.strings⟩, vec, r)

/-! ## Callers -/

/-- A string without its terminator. -/
structure CString where
  bytes : List UInt8
  noNul : 0 ∉ bytes
deriving DecidableEq

inductive Op (α : Type) where
  | push (x : α)
  | erase (index : Int)
deriving DecidableEq

/-- A caller that counts the elements; `results` are those of its calls. -/
structure Strings where
  mem : Mem
  vec : Nat
  rowc : Nat
  results : List Int

def Strings.start : Strings := ⟨⟨.empty, .empty⟩, 0, 0, []⟩

def strings : System Strings (Op CString) where
  init v := v = .start
  step v
    | .push s => (pushBackString v.mem v.vec v.rowc s.bytes).map fun (mem, vec) =>
        ⟨mem, vec, v.rowc + 1, v.results ++ [0]⟩
    | .erase index => (eraseString v.mem v.vec v.rowc index).map fun (mem, vec, r) =>
        ⟨mem, vec, if r < 0 then v.rowc else v.rowc - 1, v.results ++ [r]⟩

structure Ints where
  heap : Heap (List (Option Int32))
  vec : Nat
  count : Nat
  results : List Int

def Ints.start : Ints := ⟨.empty, 0, 0, []⟩

def ints : System Ints (Op Int32) where
  init v := v = .start
  step v
    | .push x => (pushBackInt v.heap v.vec v.count x).map fun (heap, vec) =>
        ⟨heap, vec, v.count + 1, v.results ++ [0]⟩
    | .erase index => (eraseInt v.heap v.vec v.count index).map fun (heap, vec, r) =>
        ⟨heap, vec, if r < 0 then v.count else v.count - 1, v.results ++ [r]⟩

/-! ## Lists -/

/-- What a vector is for: a list with its results, to which elements are appended and
from which they are removed. -/
structure Spec (α : Type) where
  elems : List α
  results : List Int

def Spec.step {α : Type} (l : Spec α) : Op α → Spec α
  | .push x => ⟨l.elems ++ [x], l.results ++ [0]⟩
  | .erase index =>
      if l.elems = [] then ⟨l.elems, l.results ++ [-1]⟩
      else if index ≥ l.elems.length ∨ index < 0 then ⟨l.elems, l.results ++ [-2]⟩
      else ⟨l.elems.eraseIdx index.toNat, l.results ++ [if l.elems.length = 1 then 1 else 0]⟩

def Spec.run {α : Type} (ops : List (Op α)) : Spec α := ops.foldl Spec.step ⟨[], []⟩

end Linuxyz.Vector
