import Linuxyz.ChrStore.Store

/-!
# Linuxyz.ChrStore.Lifetime

The allocation behind the character device over whole runs of `device_write`,
`device_read` and `device_llseek`.

`blk_count` is meant to tell how much `msg` points to.  The two part in three
places: an empty write frees `msg` and keeps the pointer, a failed `krealloc`
replaces `msg` by `NULL`, and `device_read` compares the length it is asked for
with `MAX_LEN` blocks instead of with `blk_count`.
-/

namespace Linuxyz.ChrStore

/-- A call of the device. -/
inductive Op where
  | write (kernel : Kernel) (buf : List UInt8)
  | read (uncopied len : Nat)
  | llseek (whence : Whence)

/-- The device; a run ends with an access to memory that was freed or through
`NULL`, with a second free, and with a copy to the user that leaves the
allocation.  A `strlen` that leaves it has no effect on the store. -/
def device : System Store Op where
  init s := s = .start
  step s
    | .write k buf => (deviceWrite k s buf).map (·.2)
    | .read uncopied len => (deviceRead uncopied s len).map fun _ => s
    | .llseek whence =>
        match s.msg with
        | .block _ => some s
        | .null | .freed => (deviceLlseek s whence).map fun _ => s

/-- An empty write finds no store, a resize gets its memory, and a read asks for
no more than the store has, or for so much that it is refused. -/
def Safe (s : Store) : Op → Prop
  | .write k buf =>
      (buf = [] → s.msg = .null) ∧
        (s.msg ≠ .null → s.blkCount ≠ blocks buf.length → blocks buf.length ≤ maxLen →
          k.alloc = true)
  | .read _ len => s.blkCount ≠ 0 → len ≤ s.blkCount * blkLen ∨ maxLen < blocks len
  | .llseek _ => True

instance decidableSafe (s : Store) : (op : Op) → Decidable (Safe s op)
  | .write k buf =>
      inferInstanceAs (Decidable ((buf = [] → s.msg = .null) ∧
        (s.msg ≠ .null → s.blkCount ≠ blocks buf.length → blocks buf.length ≤ maxLen →
          k.alloc = true)))
  | .read _ len =>
      inferInstanceAs (Decidable (s.blkCount ≠ 0 → len ≤ s.blkCount * blkLen ∨ maxLen < blocks len))
  | .llseek _ => .isTrue trivial

/-- `msg` points to an allocation of `blk_count` blocks, or is `NULL` when there
are none. -/
structure Live (s : Store) : Prop where
  block : 0 < s.blkCount → ∃ bytes, s.msg = .block bytes ∧ bytes.length = s.blkCount * blkLen
  null : s.blkCount = 0 → s.msg = .null

theorem live_start : Live .start := ⟨fun h => absurd h (Nat.lt_irrefl 0), fun _ => rfl⟩

/-- What a live store's pointer can be. -/
theorem Live.msg_cases {s : Store} (h : Live s) :
    (s.blkCount = 0 ∧ s.msg = .null) ∨
      (0 < s.blkCount ∧ ∃ bytes, s.msg = .block bytes ∧ bytes.length = s.blkCount * blkLen) := by
  rcases Nat.eq_zero_or_pos s.blkCount with hzero | hpos
  · exact .inl ⟨hzero, h.null hzero⟩
  · exact .inr ⟨hpos, h.block hpos⟩

theorem live_copyFromUser (k : Kernel) {buf mem : List UInt8} (hne : buf ≠ [])
    (h : mem.length = blocks buf.length * blkLen) : Live (copyFromUser k buf mem).2 where
  block _ := ⟨_, rfl, sized_copyFromUser k h _ rfl⟩
  null hzero := absurd hzero (Nat.ne_of_gt (blocks_pos (List.length_pos_iff.mpr hne)))

/-- A safe write does not fault and leaves a live store. -/
theorem Live.deviceWrite {s : Store} (h : Live s) (hsafe : Safe s (.write k buf)) :
    ∃ r s', deviceWrite k s buf = some (r, s') ∧ Live s' := by
  rw [ChrStore.deviceWrite]
  by_cases hmax : maxLen < blocks buf.length
  · exact ⟨_, s, if_pos hmax, h⟩
  rw [if_neg hmax]
  by_cases hempty : buf = []
  · -- an empty write finds no store and does nothing
    have hzero : blocks buf.length = 0 := by rw [hempty]; rfl
    rw [if_pos hzero, hsafe.1 hempty]
    exact ⟨_, s, rfl, h⟩
  have hpos := blocks_pos (List.length_pos_iff.mpr hempty)
  rw [if_neg (Nat.ne_of_gt hpos)]
  rcases h.msg_cases with ⟨-, hnull⟩ | ⟨-, bytes, hbytes, hlen⟩
  · rw [hnull]
    cases halloc : k.alloc with
    | true => exact ⟨_, _, if_pos rfl, live_copyFromUser k hempty List.length_replicate⟩
    | false => exact ⟨_, s, if_neg (by decide), h⟩
  · simp only [hbytes]
    by_cases hsame : s.blkCount = blocks buf.length
    · rw [if_neg (not_not.mpr hsame), memset_zero]
      exact ⟨_, _, rfl, live_copyFromUser k hempty (by rw [hlen, hsame])⟩
    · have halloc : k.alloc = true := hsafe.2 (by simp [hbytes]) hsame (Nat.not_lt.mp hmax)
      rw [if_pos hsame, if_pos halloc]
      exact ⟨_, _, rfl, live_copyFromUser k hempty (length_krealloc _ _ _)⟩

/-- A safe read copies bytes of the store, at most all of them. -/
theorem Live.deviceRead {s : Store} (h : Live s) (hsafe : Safe s (.read uncopied len)) :
    ∃ r bs, deviceRead uncopied s len = some (r, bs) ∧ bs.length ≤ s.blkCount * blkLen := by
  rw [ChrStore.deviceRead]
  rcases h.msg_cases with ⟨hzero, -⟩ | ⟨hpos, bytes, hbytes, hlen⟩
  · exact ⟨_, _, if_pos hzero, Nat.zero_le _⟩
  rw [if_neg (Nat.ne_of_gt hpos)]
  by_cases hmax : maxLen < blocks len
  · exact ⟨_, _, if_pos hmax, Nat.zero_le _⟩
  · have hle : len ≤ bytes.length := by
      rw [hlen]
      exact (hsafe (Nat.ne_of_gt hpos)).resolve_right hmax
    rw [if_neg hmax]
    simp only [hbytes, if_pos hle]
    refine ⟨_, _, rfl, ?_⟩
    rw [List.length_take, ← hlen]
    exact Nat.min_le_right _ _

/-- A call that meets the condition goes through and leaves the store live. -/
theorem Live.step {s : Store} {op : Op} (h : Live s) (hsafe : Safe s op) :
    ∃ s', device.step s op = some s' ∧ Live s' := by
  cases op with
  | write k buf =>
      obtain ⟨r, s', hs', hlive⟩ := h.deviceWrite hsafe
      exact ⟨s', by simp only [device, hs', Option.map_some], hlive⟩
  | read uncopied len =>
      obtain ⟨r, bs, hr, -⟩ := h.deviceRead hsafe
      exact ⟨s, by simp only [device, hr, Option.map_some], h⟩
  | llseek whence =>
      rcases h.msg_cases with ⟨hzero, hnull⟩ | ⟨-, bytes, hbytes, -⟩
      · exact ⟨s, by simp only [device, hnull, deviceLlseek, hzero, if_true, Option.map_some], h⟩
      · exact ⟨s, by simp only [device, hbytes], h⟩

/-- **The store stays live.**  Every sequence of calls in which an empty write
finds no store, a resize gets its memory and no read asks for more than is
stored runs without a fault; `msg` then points to an allocation of `blk_count`
blocks, or is `NULL` when there are none, and a further read of that kind copies
no more than those blocks. -/
theorem store_live_of_safe {ops : List Op} (hops : device.Meets Safe .start ops) :
    ∃ s, device.run .start ops = some s ∧
      (0 < s.blkCount → ∃ bytes, s.msg = .block bytes ∧ bytes.length = s.blkCount * blkLen) ∧
      (s.blkCount = 0 → s.msg = .null) ∧
      ∀ uncopied len, Safe s (.read uncopied len) →
        ∃ r bs, deviceRead uncopied s len = some (r, bs) ∧ bs.length ≤ s.blkCount * blkLen := by
  obtain ⟨s, hrun, hlive⟩ := hops.run (fun _ _ h hsafe => h.step hsafe) live_start
  exact ⟨s, hrun, hlive.block, hlive.null, fun _ _ hsafe => hlive.deviceRead hsafe⟩

/-- An empty write, a write and a read of the whole store. -/
theorem store_live_whole :
    ∃ s, device.run .start [.write calm [], .write calm [65], .read 0 blkLen, .llseek .seekEnd] =
      some s ∧
      (0 < s.blkCount → ∃ bytes, s.msg = .block bytes ∧ bytes.length = s.blkCount * blkLen) ∧
      (s.blkCount = 0 → s.msg = .null) ∧
      ∀ uncopied len, Safe s (.read uncopied len) →
        ∃ r bs, deviceRead uncopied s len = some (r, bs) ∧ bs.length ≤ s.blkCount * blkLen :=
  store_live_of_safe (by decide +kernel)

/-- An empty write leaves a pointer to freed memory with no block counted, and a
second one frees it again; a resize without memory writes through `NULL`; and a
read of one byte more than the store has leaves it. -/
theorem store_dangles :
    (∃ s, device.run .start [.write calm [65], .write calm []] = some s ∧ s.blkCount = 0 ∧
      s.msg = .freed) ∧
    device.run .start [.write calm [65], .write calm [], .write calm []] = none ∧
    device.run .start [.write calm [65], .write ⟨false, 0, fun _ => 0⟩ (List.replicate 4097 66)] =
      none ∧
    device.run .start [.write calm [65], .read 0 4097] = none := by
  refine ⟨⟨⟨0, .freed⟩, ?_, rfl, rfl⟩, ?_, ?_, ?_⟩ <;> decide +kernel

end Linuxyz.ChrStore
