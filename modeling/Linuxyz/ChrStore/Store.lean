import Linuxyz.Lib.Buffer
import Linuxyz.Lib.System

/-!
# Linuxyz.ChrStore.Store

The character device of `kdev-char-storage/chr_store.c`: one allocation `msg` of
`blk_count` blocks, replaced by every write and read back from its start; its
length is what `strlen` finds.

A write is meant to leave its bytes and zeros behind them.  But the `memset`
that should clear the old content has its last two arguments swapped and sets no
byte, `krealloc` does not clear what it adds, and an empty write frees `msg`
without forgetting the pointer.  So what follows the bytes of a write is what
was there before.
-/

namespace Linuxyz.ChrStore

open Buffer

/-- `MAX_LEN`. -/
def maxLen : Nat := 256

/-- `BLK_LEN`. -/
def blkLen : Nat := 4096

/-- The number of blocks for `len` bytes, as `device_read` and `device_write`
compute it. -/
def blocks (len : Nat) : Nat := if len % blkLen ≠ 0 then len / blkLen + 1 else len / blkLen

/-- The blocks for `len` bytes have room for them. -/
theorem le_blocks_mul (len : Nat) : len ≤ blocks len * blkLen := by
  have hdiv := Nat.div_add_mod len blkLen
  have hlt := Nat.mod_lt len (show 0 < blkLen by decide)
  unfold blocks
  split
  · rw [Nat.add_mul, Nat.mul_comm]
    omega
  next hmod =>
    rw [Nat.mul_comm]
    omega

theorem blocks_pos (h : 0 < len) : 0 < blocks len := by
  have hle := le_blocks_mul len
  rcases Nat.eq_zero_or_pos (blocks len) with hzero | hpos
  · rw [hzero] at hle
    omega
  · exact hpos

theorem blocks_le (h : len ≤ maxLen * blkLen) : blocks len ≤ maxLen := by
  unfold blocks
  split <;> simp only [maxLen, blkLen] at * <;> omega

/-- The pointer `msg` and what it points to. -/
inductive Msg where
  | null
  | block (bytes : List UInt8)
  /-- memory that was freed -/
  | freed
deriving DecidableEq, Repr

structure Store where
  blkCount : Nat
  msg : Msg
deriving DecidableEq, Repr

def Store.start : Store := ⟨0, .null⟩

/-- What the kernel does in one call: whether the allocation succeeds, how many
bytes a user copy leaves out, and what is in memory that was not cleared. -/
structure Kernel where
  alloc : Bool
  uncopied : Nat
  fresh : Nat → UInt8

/-- `memset(dst, c, n)`. -/
def memset (dst : List UInt8) (c n : Nat) : List UInt8 :=
  overwrite dst 0 (List.replicate n (UInt8.ofNat c))

/-- `krealloc`: the old bytes, and what is in the memory behind them. -/
def krealloc (k : Kernel) (old : List UInt8) (size : Nat) : List UInt8 :=
  (List.range size).map fun i => old.getD i (k.fresh i)

/-- What `copy_from_user` stores: where the user's memory ends it goes on with zeros. -/
def userBytes (k : Kernel) (buf : List UInt8) : List UInt8 :=
  buf.take (buf.length - k.uncopied) ++ List.replicate (min k.uncopied buf.length) 0

/-- The end of `device_write`: `copy_from_user` into `mem`. -/
def copyFromUser (k : Kernel) (buf mem : List UInt8) : Int × Store :=
  ((buf.length - k.uncopied : Nat), ⟨blocks buf.length, .block (overwrite mem 0 (userBytes k buf))⟩)

/-- `-EINVAL`. -/
def einval : Int := -22

/-- `-ENOMEM`. -/
def enomem : Int := -12

/-- `device_write`: its result and the store; `none` is an access to memory that
was freed, or through a `NULL` that `krealloc` returned. -/
def deviceWrite (k : Kernel) (s : Store) (buf : List UInt8) : Option (Int × Store) :=
  if maxLen < blocks buf.length then some (einval, s)
  else if blocks buf.length = 0 then
    match s.msg with
    | .null => some (0, s)
    | .block _ => some (0, ⟨0, .freed⟩)
    | .freed => none
  else
    match s.msg with
    | .null =>
        if k.alloc then some (copyFromUser k buf (List.replicate (blocks buf.length * blkLen) 0))
        else some (enomem, s)
    | .block old =>
        if s.blkCount ≠ blocks buf.length then
          if k.alloc then
            some (copyFromUser k buf
              (krealloc k (memset old (s.blkCount * blkLen) 0) (blocks buf.length * blkLen)))
          else none
        else some (copyFromUser k buf (memset old (s.blkCount * blkLen) 0))
    | .freed => none

/-- `device_read`: its result and the bytes copied to the user; `none` is a read
behind the allocation. -/
def deviceRead (uncopied : Nat) (s : Store) (len : Nat) : Option (Int × List UInt8) :=
  if s.blkCount = 0 then some (0, [])
  else if maxLen < blocks len then some (einval, [])
  else
    match s.msg with
    | .block bytes =>
        if len ≤ bytes.length then some ((len - uncopied : Nat), bytes.take (len - uncopied))
        else none
    | .null | .freed => none

inductive Whence where
  | seekSet
  | seekCur
  | seekEnd
deriving DecidableEq, Repr

/-- `device_llseek`; `none` when `strlen` finds no zero in the allocation. -/
def deviceLlseek (s : Store) (whence : Whence) : Option Nat :=
  if s.blkCount = 0 then some 0
  else
    match whence, s.msg with
    | .seekEnd, .block bytes => bytes.findIdx? (· == 0)
    | .seekEnd, .null | .seekEnd, .freed => none
    | .seekSet, _ | .seekCur, _ => some 0

/-! ## sequences of writes -/

structure Write where
  kernel : Kernel
  buf : List UInt8

def chrStore : System Store Write where
  init s := s = .start
  step s w := (deviceWrite w.kernel s w.buf).map (·.2)

/-- A write of at most `MAX_LEN` blocks whose allocation and copy succeed. -/
structure Write.Ok (w : Write) : Prop where
  alloc : w.kernel.alloc = true
  copied : w.kernel.uncopied = 0
  fits : w.buf.length ≤ maxLen * blkLen

/-- The bytes of a write, followed by zeros up to the end of its last block. -/
def zeroPadded (buf : List UInt8) : List UInt8 :=
  buf ++ List.replicate (blocks buf.length * blkLen - buf.length) 0

/-- There is no store yet; or there is one that was not freed, and behind the
bytes to be written it holds zeros up to the end of their last block, as does
the memory that `krealloc` adds to it. -/
def Clean (w : Write) (s : Store) : Prop :=
  match s.msg with
  | .null => True
  | .freed => False
  | .block old =>
      ∀ i < blocks w.buf.length * blkLen, w.buf.length ≤ i → old.getD i (w.kernel.fresh i) = 0

/-! ## what a write leaves -/

/-- The allocation has the size of its blocks. -/
def Sized (s : Store) : Prop := ∀ bytes, s.msg = .block bytes → bytes.length = s.blkCount * blkLen

@[simp] theorem memset_zero (dst : List UInt8) (c : Nat) : memset dst c 0 = dst := by
  simp [memset, overwrite]

@[simp] theorem length_krealloc (k : Kernel) (old : List UInt8) (size : Nat) :
    (krealloc k old size).length = size := by
  simp [krealloc]

theorem krealloc_self {old : List UInt8} (k : Kernel) (h : old.length = size) :
    krealloc k old size = old := by
  apply List.ext_getElem (by simp [h])
  intro i hi hi'
  simp [krealloc, List.getD_eq_getElem?_getD, List.getElem?_eq_getElem hi']

theorem length_userBytes (k : Kernel) (buf : List UInt8) :
    (userBytes k buf).length = buf.length := by
  rw [userBytes, List.length_append, List.length_take, List.length_replicate]
  omega

theorem sized_copyFromUser (k : Kernel) {buf mem : List UInt8}
    (h : mem.length = blocks buf.length * blkLen) : Sized (copyFromUser k buf mem).2 := by
  rintro _ ⟨⟩
  have hle := le_blocks_mul buf.length
  exact (length_overwrite (by rw [length_userBytes]; omega)).trans h

/-- One call of `device_write`, whatever the kernel does. -/
theorem sized_step {s s' : Store} {w : Write} (h : Sized s) (hs : chrStore.step s w = some s') :
    Sized s' := by
  obtain ⟨r, hr, rfl⟩ := Option.map_eq_some_iff.mp hs
  rw [deviceWrite] at hr
  split at hr
  · cases hr
    exact h
  split at hr
  · split at hr
    · cases hr
      exact h
    · cases hr
      rintro _ ⟨⟩
    · cases hr
  · split at hr
    · split at hr
      · cases hr
        exact sized_copyFromUser _ List.length_replicate
      · cases hr
        exact h
    next old hold =>
      split at hr
      · split at hr
        · cases hr
          exact sized_copyFromUser _ (length_krealloc _ _ _)
        · cases hr
      next hsame =>
        cases hr
        rw [memset_zero]
        exact sized_copyFromUser _ (by rw [h old hold, Decidable.not_not.mp hsame])
    · cases hr

theorem sized_of_run {s : Store} {ws : List Write} (hrun : chrStore.run .start ws = some s) :
    Sized s := by
  have hreach := System.reachable_of_run (M := chrStore) (.init rfl) hrun
  refine hreach.invariant (P := Sized) ?_ fun _ _ _ h hs => sized_step h hs
  rintro _ rfl _ ⟨⟩

/-- The memory a write copies its bytes to. -/
def memory (w : Write) (s : Store) : Option (List UInt8) :=
  match s.msg with
  | .null => some (List.replicate (blocks w.buf.length * blkLen) 0)
  | .freed => none
  | .block old => some (krealloc w.kernel old (blocks w.buf.length * blkLen))

/-- A write that is not empty leaves its bytes, and behind them what was in
that memory. -/
theorem chrStore_step_eq {s : Store} {w : Write} (hs : Sized s) (hw : w.Ok) (hne : w.buf ≠ []) :
    chrStore.step s w = (memory w s).map fun mem =>
      ⟨blocks w.buf.length, .block (w.buf ++ mem.drop w.buf.length)⟩ := by
  have hpos := blocks_pos (List.length_pos_iff.mpr hne)
  have hle := blocks_le hw.fits
  have hcopy (mem : List UInt8) : (copyFromUser w.kernel w.buf mem).2 =
      ⟨blocks w.buf.length, .block (w.buf ++ mem.drop w.buf.length)⟩ := by
    simp [copyFromUser, userBytes, hw.copied, overwrite]
  simp only [chrStore, deviceWrite, memory]
  rw [if_neg (Nat.not_lt.mpr hle), if_neg (Nat.ne_of_gt hpos)]
  cases hmsg : s.msg with
  | null => simp only [hw.alloc, if_true, Option.map_some, hcopy]
  | freed => rfl
  | block old =>
      simp only [hw.alloc, if_true, memset_zero]
      split
      · simp only [Option.map_some, hcopy]
      next hsame =>
        have hlen : old.length = blocks w.buf.length * blkLen := by
          rw [hs old hmsg, Decidable.not_not.mp hsame]
        simp only [Option.map_some, hcopy, krealloc_self w.kernel hlen]

/-- The memory behind the bytes is zero exactly for a clean write. -/
theorem clean_iff {w : Write} {s : Store} :
    Clean w s ↔ ∃ mem, memory w s = some mem ∧
      mem.drop w.buf.length = List.replicate (blocks w.buf.length * blkLen - w.buf.length) 0 := by
  unfold Clean memory
  cases s.msg with
  | null => simp
  | freed => simp
  | block old =>
      simp only [Option.some.injEq, exists_eq_left', List.eq_replicate_iff, List.length_drop,
        length_krealloc, true_and]
      constructor
      · intro h b hb
        obtain ⟨i, hi, rfl⟩ := List.mem_iff_getElem.mp hb
        rw [List.length_drop, length_krealloc] at hi
        rw [List.getElem_drop]
        simp only [krealloc, List.getElem_map, List.getElem_range]
        exact h _ (by omega) (by omega)
      · intro h i hi hle
        apply h
        refine List.mem_iff_getElem.mpr ⟨i - w.buf.length,
          by rw [List.length_drop, length_krealloc]; omega, ?_⟩
        rw [List.getElem_drop]
        simp only [krealloc, List.getElem_map, List.getElem_range, Nat.add_sub_cancel' hle]

/-! ## what is read back -/

/-- A store that holds the padded bytes of a write gives their length and the
bytes themselves. -/
theorem read_back {s : Store} (buf : List UInt8) (hcount : s.blkCount = blocks buf.length)
    (hmsg : s.msg = .block (zeroPadded buf)) (hfits : buf.length ≤ maxLen * blkLen) (hnul : 0 ∉ buf)
    (hpart : buf.length % blkLen ≠ 0) :
    deviceLlseek s .seekEnd = some buf.length ∧
      deviceRead 0 s buf.length = some ((buf.length : Int), buf) := by
  have hlen : buf.length < blocks buf.length * blkLen := by
    refine Nat.lt_of_le_of_ne (le_blocks_mul _) fun he => hpart ?_
    rw [he, Nat.mul_mod_left]
  have hpos : s.blkCount ≠ 0 := by
    intro hzero
    rw [← hcount, hzero] at hlen
    omega
  constructor
  · simp only [deviceLlseek, if_neg hpos, hmsg, zeroPadded]
    rw [List.findIdx?_append, List.findIdx?_eq_none_iff.mpr]
    · obtain ⟨m, hm⟩ : ∃ m, blocks buf.length * blkLen - buf.length = m + 1 :=
        ⟨_, (Nat.succ_pred (by omega)).symm⟩
      simp [hm, List.replicate_succ, List.findIdx?_cons]
    · intro b hb
      exact beq_eq_false_iff_ne.mpr fun he => hnul (he ▸ hb)
  · simp only [deviceRead, if_neg hpos, if_neg (Nat.not_lt.mpr (blocks_le hfits)), hmsg]
    simp [zeroPadded]

/-- **A write leaves its bytes and zeros exactly if it is clean.**  For every
sequence of writes and a further one that is not empty: the store then holds the
bytes of the last write followed by zeros up to the end of its last block, with
what follows for `device_llseek` and `device_read`, if and only if the writes
before it ran without a fault and left a store for which it is clean. -/
theorem stored_iff_clean (history : List Write) {w : Write} (hw : w.Ok) (hne : w.buf ≠ []) :
    (∃ s', chrStore.run .start (history ++ [w]) = some s' ∧ s'.msg = .block (zeroPadded w.buf) ∧
      (0 ∉ w.buf → w.buf.length % blkLen ≠ 0 →
        deviceLlseek s' .seekEnd = some w.buf.length ∧
        deviceRead 0 s' w.buf.length = some ((w.buf.length : Int), w.buf))) ↔
      ∃ s, chrStore.run .start history = some s ∧ Clean w s := by
  constructor
  · rintro ⟨s', hrun, hmsg, -⟩
    rw [System.run_append, Option.bind_eq_some_iff] at hrun
    obtain ⟨s, hs, hlast⟩ := hrun
    refine ⟨s, hs, clean_iff.mpr ?_⟩
    rw [System.run_cons, chrStore_step_eq (sized_of_run hs) hw hne] at hlast
    cases hmem : memory w s with
    | none => simp [hmem] at hlast
    | some mem =>
        rw [hmem] at hlast
        cases hlast
        exact ⟨mem, rfl, List.append_cancel_left (Msg.block.inj hmsg)⟩
  · rintro ⟨s, hs, hclean⟩
    obtain ⟨mem, hmem, hzero⟩ := clean_iff.mp hclean
    refine ⟨⟨blocks w.buf.length, .block (zeroPadded w.buf)⟩, ?_, rfl, fun hnul hpart => ?_⟩
    · rw [System.run_append, hs, Option.bind_some, System.run_cons,
        chrStore_step_eq (sized_of_run hs) hw hne, hmem, Option.map_some, hzero]
      rfl
    · exact read_back w.buf rfl rfl hw.fits hnul hpart

/-- A call in which everything succeeds and uncleared memory is zero. -/
def calm : Kernel := ⟨true, 0, fun _ => 0⟩

/-- A second write longer than the first. -/
theorem stored_longer :
    ∃ s', chrStore.run .start [⟨calm, [65]⟩, ⟨calm, [66, 67]⟩] = some s' ∧
      s'.msg = .block (zeroPadded [66, 67]) ∧
      deviceLlseek s' .seekEnd = some 2 ∧ deviceRead 0 s' 2 = some (2, [66, 67]) := by
  have hok : Write.Ok ⟨calm, [65]⟩ := ⟨rfl, rfl, by decide⟩
  have hok' : Write.Ok ⟨calm, [66, 67]⟩ := ⟨rfl, rfl, by decide⟩
  have hsized : Sized .start := fun _ h => by cases h
  have hrun : chrStore.run .start [⟨calm, [65]⟩] =
      some ⟨1, .block (65 :: List.replicate (blkLen - 1) 0)⟩ := by
    rw [System.run_cons, chrStore_step_eq hsized hok (by simp)]
    simp only [memory, Store.start, Option.map_some, Option.bind_some, List.drop_replicate]
    rfl
  have hclean : Clean ⟨calm, [66, 67]⟩ ⟨1, .block (65 :: List.replicate (blkLen - 1) 0)⟩ := by
    intro i hi hle
    obtain ⟨j, rfl⟩ : ∃ j, i = j + 1 := ⟨i - 1, by simp at hle; omega⟩
    simp only [calm, List.getD_eq_getElem?_getD, List.getElem?_cons_succ, List.getElem?_replicate]
    split <;> rfl
  obtain ⟨s', hs', hmsg, hback⟩ :=
    (stored_iff_clean [⟨calm, [65]⟩] hok' (by simp)).mpr ⟨_, hrun, hclean⟩
  exact ⟨s', hs', hmsg, hback (by decide) (by decide)⟩

/-- A shorter write leaves the end of the longer one behind its byte; and after
an empty write the next one uses freed memory. -/
theorem stored_shorter :
    (∃ s', chrStore.run .start [⟨calm, [65, 66, 67]⟩, ⟨calm, [68]⟩] = some s' ∧
      s'.msg ≠ .block (zeroPadded [68]) ∧ deviceLlseek s' .seekEnd = some 3) ∧
    chrStore.run .start [⟨calm, [65, 66, 67]⟩, ⟨calm, []⟩, ⟨calm, [68]⟩] = none := by
  constructor
  · have hrun : (chrStore.run .start [⟨calm, [65, 66, 67]⟩, ⟨calm, [68]⟩]).map
        (fun s => (s.blkCount, deviceLlseek s .seekEnd)) = some (1, some 3) := by decide +kernel
    obtain ⟨s', hs', hend⟩ := Option.map_eq_some_iff.mp hrun
    obtain ⟨hcount, hend⟩ := Prod.mk.inj hend
    refine ⟨s', hs', fun hmsg => ?_, hend⟩
    have hback := (read_back [68] hcount hmsg (by decide) (by decide) (by decide)).1
    rw [hend] at hback
    cases hback
  · decide +kernel

end Linuxyz.ChrStore
