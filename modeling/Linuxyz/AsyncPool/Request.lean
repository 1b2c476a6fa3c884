import Linuxyz.AsyncPool.Pool
import Mathlib.Algebra.Ring.Int.Defs
import Mathlib.Data.Nat.Find

/-!
# Linuxyz.AsyncPool.Request

The read loop of `handle_client` in `dev-sock-epoll-tcp-async-pool`: it collects a
request of `MAX_BUFF` bytes and then hands it to a worker, or closes the connection
when `done` was set on the way.

The loop has no exit but `valread == MAX_BUFF`, and it adds to `valread` whatever
`read` returns.  So at the end of the stream it reads for ever, and each failed call
takes one off: the bytes that arrive next are stored one place too early, before
`buff` if it was the first call.
-/

namespace Linuxyz.AsyncPool.Request

/-- What `read` does: it stores bytes, none of them at the end of the stream, or fails
with `EAGAIN` or with another `errno`. -/
inductive Read where
  | bytes (bs : List UInt8)
  | again
  | error
deriving DecidableEq, Repr

/-- What `read` returns. -/
def Read.value : Read → Int
  | .bytes bs => bs.length
  | .again => -1
  | .error => -1

/-- The locals of `handle_client`: `buff` is the memory from its start on, and before it;
`received` is what the calls have stored so far. -/
structure Loop where
  valread : Int
  done : Bool
  buff : Int → UInt8
  received : List UInt8

def Loop.start : Loop := ⟨0, false, fun _ => 0, []⟩

/-- The bytes `bs` stored at `off`. -/
def store (buff : Int → UInt8) (off : Int) (bs : List UInt8) : Int → UInt8 :=
  fun i => if off ≤ i ∧ i < off + bs.length then bs.getD (i - off).toNat 0 else buff i

/-- A turn of `while(valread != MAX_BUFF)`. -/
def Loop.turn (s : Loop) (r : Read) : Loop :=
  match r with
  | .bytes bs =>
      { valread := s.valread + r.value
        done := s.done || bs.isEmpty
        buff := store s.buff s.valread bs
        received := s.received ++ bs }
  | .again => { s with valread := s.valread + r.value, done := true }
  | .error => { s with valread := s.valread + r.value, done := true }

/-- The loop after at most `k` turns, `reads i` being what the call in turn `i` does. -/
def loop (reads : Nat → Read) : Nat → Loop
  | 0 => .start
  | k + 1 =>
      let s := loop reads k
      if s.valread = maxBuff then s else s.turn (reads k)

inductive Event where
  | close
  | toWorker (data : List UInt8)
deriving DecidableEq, Repr

/-- What follows the loop. -/
def finish (s : Loop) : List Event :=
  if s.done then [.close] else [.toWorker ((List.range maxBuff).map fun i : Nat => s.buff i)]

/-- `read` does not store more than it is asked for. -/
def Legal (reads : Nat → Read) : Prop :=
  ∀ k, (loop reads k).valread ≠ maxBuff → (reads k).value ≤ maxBuff - (loop reads k).valread

/-- The loop ends; `valread` is in the range of `buff` all the time, and the number of
bytes stored; a worker gets what was received, and that are `MAX_BUFF` bytes; and the
descriptor is closed at most once, and because of the end of the stream or an error. -/
structure Correct (reads : Nat → Read) : Prop where
  ends : ∃ k, (loop reads k).valread = maxBuff
  bounds : ∀ k, 0 ≤ (loop reads k).valread ∧ (loop reads k).valread ≤ maxBuff ∧
    (loop reads k).valread = (loop reads k).received.length
  passed : ∀ k, (loop reads k).valread = maxBuff → ∀ data, .toWorker data ∈ finish (loop reads k) →
    data = (loop reads k).received ∧ data.length = maxBuff
  closed : ∀ k, (loop reads k).valread = maxBuff → (finish (loop reads k)).count .close ≤ 1 ∧
    (.close ∈ finish (loop reads k) → ∃ j < k, reads j = .bytes [] ∨ reads j = .error)

/-- The first `k` calls all store bytes or meet the end of the stream, `MAX_BUFF` bytes
together. -/
def Fills (reads : Nat → Read) (k : Nat) : Prop :=
  (∀ j < k, ∃ bs, reads j = .bytes bs) ∧ ((List.range k).map fun j => (reads j).value).sum = maxBuff

/-! ## One turn -/

variable {reads : Nat → Read} {k : Nat}

theorem loop_succ_of_ne (h : (loop reads k).valread ≠ maxBuff) :
    loop reads (k + 1) = (loop reads k).turn (reads k) := if_neg h

theorem loop_succ_of_eq (h : (loop reads k).valread = maxBuff) :
    loop reads (k + 1) = loop reads k := if_pos h

/-- A loop that is over stays as it is. -/
theorem loop_of_le {j : Nat} (h : (loop reads k).valread = maxBuff) (hj : k ≤ j) :
    loop reads j = loop reads k := by
  induction hj with
  | refl => rfl
  | step _ ih => rw [loop_succ_of_eq (by rw [ih, h]), ih]

theorem Loop.turn_valread (s : Loop) (r : Read) : (s.turn r).valread = s.valread + r.value := by
  cases r <;> rfl

/-- While the loop runs, `valread` is the sum of what the calls have returned. -/
theorem valread_eq_sum (hrun : ∀ j < k, (loop reads j).valread ≠ maxBuff) :
    (loop reads k).valread = ((List.range k).map fun j => (reads j).value).sum := by
  induction k with
  | zero => rfl
  | succ k ih =>
      rw [loop_succ_of_ne (hrun k (Nat.lt_succ_self k)), Loop.turn_valread,
        ih fun j hj => hrun j (Nat.lt_succ_of_lt hj)]
      simp [List.range_succ]

/-- A failed call makes `valread` differ from what was stored. -/
theorem valread_of_failed (h : (loop reads k).valread ≠ maxBuff)
    (hfail : ∀ bs, reads k ≠ .bytes bs) :
    (loop reads (k + 1)).valread = (loop reads k).valread - 1 ∧
      (loop reads (k + 1)).received = (loop reads k).received := by
  rw [loop_succ_of_ne h]
  cases hr : reads k with
  | bytes bs => exact absurd hr (hfail bs)
  | again => exact ⟨rfl, rfl⟩
  | error => exact ⟨rfl, rfl⟩

/-- Bytes stored behind those that are there. -/
theorem store_append {buff : Int → UInt8} {received : List UInt8}
    (h : ∀ i (hi : i < received.length), buff i = received[i]) (bs : List UInt8) (i : Nat)
    (hi : i < (received ++ bs).length) : store buff received.length bs i = (received ++ bs)[i] := by
  rw [List.length_append] at hi
  by_cases hold : i < received.length
  · have hout : ¬((received.length : Int) ≤ i ∧ (i : Int) < received.length + bs.length) := by omega
    rw [store, if_neg hout, h i hold, List.getElem_append_left hold]
  · have hin : (received.length : Int) ≤ i ∧ (i : Int) < received.length + bs.length := by omega
    have hidx : ((i : Int) - received.length).toNat = i - received.length := by omega
    have hlt : i - received.length < bs.length := by omega
    rw [store, if_pos hin, hidx, List.getD_eq_getElem?_getD, List.getElem?_eq_getElem hlt,
      List.getElem_append_right (Nat.not_lt.mp hold), Option.getD_some]

/-! ## The invariant -/

/-- The loop while no call has failed: `received` is what `buff` begins with. -/
structure Inv (reads : Nat → Read) (k : Nat) : Prop where
  count : (loop reads k).valread = (loop reads k).received.length
  le : (loop reads k).valread ≤ maxBuff
  buff : ∀ i (hi : i < (loop reads k).received.length),
    (loop reads k).buff i = (loop reads k).received[i]
  done : (loop reads k).done → ∃ j < k, reads j = .bytes []

theorem inv_zero (reads : Nat → Read) : Inv reads 0 where
  count := rfl
  le := Int.natCast_nonneg maxBuff
  buff i hi := absurd hi (Nat.not_lt_zero i)
  done h := by cases h

/-- A `read` that returns bytes puts them behind those already read. -/
theorem Inv.succ (hlegal : Legal reads) (h : Inv reads k) {bs : List UInt8}
    (hr : reads k = .bytes bs) : Inv reads (k + 1) := by
  have hdone : (loop reads k).done → ∃ j < k + 1, reads j = .bytes [] := by
    intro hdone
    obtain ⟨j, hj, heof⟩ := h.done hdone
    exact ⟨j, Nat.lt_succ_of_lt hj, heof⟩
  by_cases hend : (loop reads k).valread = maxBuff
  · have hstay := loop_succ_of_eq hend
    exact ⟨hstay ▸ h.count, hstay ▸ h.le, hstay ▸ h.buff, hstay ▸ hdone⟩
  · have hturn : loop reads (k + 1) = (loop reads k).turn (.bytes bs) := by
      rw [loop_succ_of_ne hend, hr]
    have hvalread : (loop reads (k + 1)).valread = (loop reads k).valread + bs.length := by
      rw [hturn]; rfl
    have hreceived : (loop reads (k + 1)).received = (loop reads k).received ++ bs := by
      rw [hturn]; rfl
    have hroom := hlegal k hend
    rw [hr, Read.value] at hroom
    constructor
    case count => rw [hvalread, hreceived, h.count, List.length_append, Int.natCast_add]
    case le => omega
    case buff =>
      rw [hturn]
      show ∀ i (hi : i < ((loop reads k).received ++ bs).length),
        store (loop reads k).buff (loop reads k).valread bs i = ((loop reads k).received ++ bs)[i]
      rw [h.count]
      exact store_append h.buff bs
    case done =>
      rw [hturn]
      intro hdone'
      rcases Bool.or_eq_true_iff.mp hdone' with hold | hempty
      · exact hdone hold
      · exact ⟨k, Nat.lt_succ_self k, by rw [hr, List.isEmpty_iff.mp hempty]⟩

theorem inv_of_bytes (hlegal : Legal reads)
    (hbytes : ∀ j < k, ∃ bs, reads j = .bytes bs) : Inv reads k := by
  induction k with
  | zero => exact inv_zero reads
  | succ k ih =>
      obtain ⟨bs, hr⟩ := hbytes k (Nat.lt_succ_self k)
      exact (ih fun j hj => hbytes j (Nat.lt_succ_of_lt hj)).succ hlegal hr

/-! ## When the loop is correct -/

/-- Calls that fill the buffer bring the loop to its end. -/
theorem Fills.ends (h : Fills reads k) : (loop reads k).valread = maxBuff := by
  by_cases hrun : ∀ j < k, (loop reads j).valread ≠ maxBuff
  · rw [valread_eq_sum hrun, h.2]
  · simp only [not_forall, not_not] at hrun
    obtain ⟨j, hj, hend⟩ := hrun
    rw [loop_of_le hend (Nat.le_of_lt hj), hend]

/-- Reads that fill the block exactly make the loop correct: it ends, inside the buffer,
with what was received. -/
theorem Fills.correct (hlegal : Legal reads) (h : Fills reads k) : Correct reads := by
  have hend := h.ends
  -- from turn `k` on the loop is over, up to there no call fails
  have hinv (j : Nat) : ∃ i ≤ j, loop reads j = loop reads i ∧ Inv reads i := by
    by_cases hj : j ≤ k
    · exact ⟨j, Nat.le_refl j, rfl, inv_of_bytes hlegal fun i hi => h.1 i (by omega)⟩
    · exact ⟨k, by omega, loop_of_le hend (by omega), inv_of_bytes hlegal h.1⟩
  constructor
  case ends => exact ⟨k, hend⟩
  case bounds =>
    intro j
    obtain ⟨i, -, hloop, hi⟩ := hinv j
    rw [hloop]
    exact ⟨by rw [hi.count]; exact Int.natCast_nonneg _, hi.le, hi.count⟩
  case passed =>
    intro j hj data hdata
    obtain ⟨i, -, hloop, hi⟩ := hinv j
    rw [hloop] at hj hdata ⊢
    have hlen : (loop reads i).received.length = maxBuff := by
      have := hi.count
      omega
    rw [finish] at hdata
    split at hdata
    · cases List.mem_singleton.mp hdata
    · have hdata' := Event.toWorker.inj (List.mem_singleton.mp hdata)
      have hdatalen : data.length = maxBuff := by rw [hdata', List.length_map, List.length_range]
      refine ⟨List.ext_getElem (by rw [hdatalen, hlen]) fun n h₁ h₂ => ?_, hdatalen⟩
      simp only [hdata', List.getElem_map, List.getElem_range, hi.buff n h₂]
  case closed =>
    intro j hj
    obtain ⟨i, hij, hloop, hi⟩ := hinv j
    rw [hloop, finish]
    split
    · next hdone =>
        refine ⟨by decide, fun _ => ?_⟩
        obtain ⟨n, hn, heof⟩ := hi.done hdone
        exact ⟨n, by omega, .inl heof⟩
    · exact ⟨by simp, fun hmem => by cases List.mem_singleton.mp hmem⟩

/-- Where the loop is correct no call has failed before it ends. -/
theorem Correct.bytes (h : Correct reads) (hrun : ∀ j < k, (loop reads j).valread ≠ maxBuff) :
    ∀ j < k, ∃ bs, reads j = .bytes bs := by
  intro j hj
  by_contra hfail
  obtain ⟨hvalread, hreceived⟩ := valread_of_failed (hrun j hj) (not_exists.mp hfail)
  have hcount := (h.bounds j).2.2
  have hcount' := (h.bounds (j + 1)).2.2
  rw [hreceived] at hcount'
  omega

theorem Correct.fills (h : Correct reads) : ∃ k, Fills reads k := by
  obtain ⟨k, hend, hrun⟩ : ∃ k, (loop reads k).valread = maxBuff ∧
    ∀ j < k, (loop reads j).valread ≠ maxBuff :=
    ⟨Nat.find h.ends, Nat.find_spec h.ends, fun j hj => Nat.find_min h.ends hj⟩
  exact ⟨k, h.bytes hrun, (valread_eq_sum hrun).symm.trans hend⟩

/-- **The request loop**: for every sequence of results of `read`, the loop is correct if
and only if the calls up to some point fill the buffer without a failure among them. -/
theorem request_loop_iff (hlegal : Legal reads) : Correct reads ↔ ∃ k, Fills reads k :=
  ⟨fun h => h.fills, fun ⟨_, h⟩ => h.correct hlegal⟩

/-- A request that arrives whole, before the client closes its end. -/
theorem request_loop_whole :
    Correct fun k => .bytes (if k = 0 then List.replicate maxBuff 7 else []) := by
  have hend : (loop (fun k => .bytes (if k = 0 then List.replicate maxBuff 7 else [])) 1).valread =
      maxBuff := by
    rw [loop_succ_of_ne (by decide), Loop.turn_valread, Read.value, if_pos rfl,
      List.length_replicate]
    exact Int.zero_add _
  refine (request_loop_iff fun k hk => ?_).mpr ⟨1, fun j _ => ⟨_, rfl⟩, ?_⟩
  · match k with
    | 0 => rw [Read.value, if_pos rfl, List.length_replicate]; exact Int.le_refl _
    | k + 1 => exact absurd (by rw [loop_of_le hend (Nat.le_add_left 1 k), hend]) hk
  · rw [List.range_one, List.map_singleton, Read.value, if_pos rfl, List.length_replicate]
    rfl

/-- Three bytes, and then nothing to read yet: `valread` is 2.  And a client that has
closed its end: the loop goes on for ever. -/
theorem request_loop_stuck :
    ((loop (fun k => if k = 0 then .bytes [1, 2, 3] else .again) 2).valread = 2 ∧
        (loop (fun k => if k = 0 then .bytes [1, 2, 3] else .again) 2).received = [1, 2, 3]) ∧
      ∀ k, (loop (fun _ => .bytes []) k).valread ≠ maxBuff := by
  refine ⟨by decide, fun k => ?_⟩
  have hzero : (loop (fun _ => .bytes []) k).valread = 0 := by
    induction k with
    | zero => rfl
    | succ k ih => rw [loop_succ_of_ne (by rw [ih]; decide), Loop.turn_valread, ih]; rfl
  rw [hzero]
  decide

end Linuxyz.AsyncPool.Request
