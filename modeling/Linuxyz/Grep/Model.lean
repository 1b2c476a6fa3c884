import Linuxyz.Lib.Buffer
import Linuxyz.Vector.Model

/-!
# Linuxyz.Grep.Model

The search of `var-grep`: standard input is read into one buffer that grows with
every chunk, the buffer is cut at the newlines with `strsep`, the rows are copied to
a vector of strings, and two more vectors get the numbers of the rows that contain
the target and the rows from there on.

The vectors grow as those of `data-vector`.  A byte of the buffer is `none` until it is
written, and as there a fault (`none`) is an access outside of a block or to a block
that is not live, a read of what was not written, and an `int` that overflows.
-/

namespace Linuxyz.Grep

open Linuxyz.Vector (Mem getSlot readString resize ptrdiffMax)

/-- `MAX_STDINPUT_WIDTH` -/
def maxStdinputWidth : Nat := 1024 * 1024

structure Heaps where
  text : Mem
  ints : Heap (List (Option Int32))

/-- `BITGREP_INPUT2D` -/
structure Input2d where
  rowCount : Nat
  buff2d : Nat

/-- `BITGREP_FOUND` -/
structure Found where
  foundCount : Nat
  foundIndex : Nat
  buffFound : Nat

/-- `BITGREP_PushBackInt`; its status is always 0. -/
def pushBackInt (h : Heap (List (Option Int32))) (vec count : Nat) (newEl : Int32) :
    Option (Heap (List (Option Int32)) × Nat) :=
  Vector.pushBackInt h vec count newEl

/-- `BITGREP_PushBackString`; its status is always 0. -/
def pushBackString (m : Mem) (vec rowc : Nat) (newEl : List UInt8) : Option (Mem × Nat) :=
  Vector.pushBackString m vec rowc newEl

/-! ## Strings in the buffer -/

/-- The string at the start of some bytes. -/
def cString : List (Option UInt8) → Option (List UInt8)
  | [] => none
  | none :: _ => none
  | some b :: cells => if b = 0 then some [] else (cString cells).map (b :: ·)

def strcat (dst : List (Option UInt8)) (src : List UInt8) : Option (List (Option UInt8)) := do
  let s ← cString dst
  Buffer.memcpy dst s.length ((src ++ [0]).map some)

/-- `strsep(&buff_input, "\n")`: the line and what `buff_input` is then, both as positions
in the buffer. -/
def strsep (cells : List (Option UInt8)) :
    Option Nat → Option (List (Option UInt8) × Option Nat × Option Nat)
  | none => some (cells, none, none)
  | some p => do
      let s ← cString (cells.drop p)
      if 10 ∈ s then
        let k := s.idxOf 10
        some (cells.set (p + k) (some 0), some p, some (p + k + 1))
      else some (cells, some p, none)

/-- `strstr`, as a position in the first string. -/
def strstr (s target : List UInt8) : Option Nat :=
  (List.range (s.length + 1)).find? fun k => target.isPrefixOf (s.drop k)

/-! ## `BITGREP_MapStdinTo2d` -/

/-- The variables of the loop that reads. -/
structure Reading where
  getBuffer : List UInt8
  totalInputSize : Nat
  buffInput : List (Option UInt8)

def Reading.start : Reading where
  getBuffer := List.replicate maxStdinputWidth 0
  totalInputSize := 1
  buffInput := List.replicate maxStdinputWidth (some 0)

/-- The loop that reads, over what the calls of `fgets` deliver; an error is the status
that is returned. -/
def readInput (r : Reading) : List (List UInt8) → Option (Except Int Reading)
  | [] => some (.ok r)
  | chunk :: chunks => do
      let getBuffer ← Buffer.memcpy r.getBuffer 0 (chunk ++ [0])
      let s ← readString getBuffer
      let totalInputSize := r.totalInputSize + s.length
      if ptrdiffMax < totalInputSize then some (.error (-1))
      else
        let buffInput ← strcat (resize totalInputSize r.buffInput) s
        readInput ⟨getBuffer, totalInputSize, buffInput⟩ chunks

/-- A row is added. -/
def pushRow (s : Mem × Input2d) (row : List UInt8) : Option (Mem × Input2d) := do
  let (m, buff2d) ← pushBackString s.1 s.2.buff2d s.2.rowCount row
  some (m, ⟨s.2.rowCount + 1, buff2d⟩)

/-- The loop that splits; at most one turn for each byte of the buffer, and a last one. -/
def splitInput : Nat → List (Option UInt8) → Option Nat → Mem × Input2d → Option (Mem × Input2d)
  | 0, _, _, _ => none
  | turns + 1, cells, buffInput, s => do
      let (cells, linePtr, buffInput) ← strsep cells buffInput
      match linePtr with
      | none => some s
      | some p =>
          let row ← cString (cells.drop p)
          let s ← pushRow s row
          splitInput turns cells buffInput s

/-- `BITGREP_MapStdinTo2d`, with its status; `failed` is `ferror(stdin)`. -/
def mapStdinTo2d (chunks : List (List UInt8)) (failed : Bool) (m : Mem) (in2d : Input2d) :
    Option (Int × Mem × Input2d) := do
  match ← readInput .start chunks with
  | .error status => some (status, m, in2d)
  | .ok r =>
      if failed then some (-2, m, in2d)
      else
        -- `strsep` leaves `NULL` in `buff_input`, so that the `free` at the end does nothing
        let s ← splitInput (r.buffInput.length + 1) r.buffInput (some 0) (m, in2d)
        some (0, s)

/-! ## `BITGREP_PopulateSearchResult` -/

/-- A turn of the loop. -/
def searchRow (target : List UInt8) (in2d : Input2d) (s : Heaps × Found) (i : Nat) :
    Option (Heaps × Found) := do
  let p ← getSlot s.1.text.arrays in2d.buff2d i
  let block ← s.1.text.strings.block p
  let row ← readString block
  match strstr row target with
  | none => some s
  | some k =>
      let (ints, foundIndex) ← pushBackInt s.1.ints s.2.foundIndex s.2.foundCount (Int32.ofNat i)
      let targetFound ← readString (block.drop k)
      let (text, buffFound) ← pushBackString s.1.text s.2.buffFound s.2.foundCount targetFound
      some (⟨text, ints⟩, ⟨s.2.foundCount + 1, foundIndex, buffFound⟩)

/-- `BITGREP_PopulateSearchResult`, with its status. -/
def populateSearchResult (target : List UInt8) (in2d : Input2d) (h : Heaps) (found : Found) :
    Option (Int × Heaps × Found) := do
  let s ← (List.range in2d.rowCount).foldlM (searchRow target in2d) (h, found)
  some (0, s)

/-! ## The program -/

structure State where
  heaps : Heaps
  in2d : Input2d
  found : Found

/-- The pointers of `in2d` and `found` in `main`, which are not set before they are
used. -/
structure Unset where
  buff2d : Nat
  foundIndex : Nat
  buffFound : Nat

/-- `main` with a target, up to the output, with what it returns. -/
def grep (chunks : List (List UInt8)) (failed : Bool) (target : List UInt8) (u : Unset) :
    Option (Int × State) := do
  let found : Found := ⟨0, u.foundIndex, u.buffFound⟩
  let (status, m, in2d) ← mapStdinTo2d chunks failed ⟨.empty, .empty⟩ ⟨0, u.buff2d⟩
  if status < 0 then some (-2, ⟨⟨m, .empty⟩, in2d, found⟩)
  else
    let (status, h, found) ← populateSearchResult target in2d ⟨m, .empty⟩ found
    some (if status < 0 then -3 else 0, ⟨h, in2d, found⟩)

end Linuxyz.Grep
