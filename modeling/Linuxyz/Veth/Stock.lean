import Linuxyz.Lib.Stacks
import Linuxyz.Veth.Device

/-!
# Linuxyz.Veth.Stock

The pools and receive queues of the two devices as lists of packet buffers.

`Stock s lists bufs` says that the four lists of the devices are `lists`, and
that the buffers made for device `d` and not freed are `bufs d`.  There is one
lemma for each way the driver changes a list or a buffer, and one for the loop
that fills a pool.
-/

namespace Linuxyz.Veth

open Function (update update_self update_of_ne update_eq_self)

/-! ## the lists of the two devices -/

/-- The heads of the lists of packet buffers. -/
inductive Slot where
  | pool (d : Dev)
  | rx (d : Dev)
deriving DecidableEq

def Sys.head (s : Sys) : Slot → Option Addr
  | .pool d => (s.priv d).ppool
  | .rx d => (s.priv d).rxQueue

variable {s s' : Sys} {d e : Dev} {p : Priv}

theorem Sys.head_setPriv (s : Sys) (d : Dev) (p : Priv) :
    (s.setPriv d p).head = update (update s.head (.pool d) p.ppool)
    (.rx d) p.rxQueue := by
  funext i
  cases i with
  | pool e | rx e => by_cases h : e = d <;> simp [Sys.head, Sys.setPriv, h]

/-- Other private data than the heads of the lists. -/
theorem Sys.head_setPriv_same (hpool : p.ppool = (s.priv d).ppool)
    (hrx : p.rxQueue = (s.priv d).rxQueue) : (s.setPriv d p).head = s.head := by
  have hp : p.ppool = s.head (.pool d) := hpool
  have hr : p.rxQueue = s.head (.rx d) := hrx
  rw [Sys.head_setPriv, hp, hr, update_eq_self, update_eq_self]

theorem Sys.head_setPriv_pool (hrx : p.rxQueue = (s.priv d).rxQueue) :
    (s.setPriv d p).head = update s.head (.pool d) p.ppool := by
  rw [Sys.head_setPriv, Function.update_comm (by simp)]
  have hr : p.rxQueue = s.head (.rx d) := hrx
  rw [hr, update_eq_self]

theorem Sys.head_setPriv_rx (hpool : p.ppool = (s.priv d).ppool) :
    (s.setPriv d p).head = update s.head (.rx d) p.rxQueue := by
  have hp : p.ppool = s.head (.pool d) := hpool
  rw [Sys.head_setPriv, hp, update_eq_self]

@[simp] theorem Sys.head_takePool (s : Sys) (d : Dev) (next : Option Addr) :
    (s.takePool d next).head = update s.head (.pool d) next := Sys.head_setPriv_pool rfl

@[simp] theorem Sys.head_clearPool (s : Sys) (d : Dev) :
    (s.clearPool d).head = update s.head (.pool d) none := Sys.head_setPriv_pool rfl

@[simp] theorem Sys.head_putPool (s : Sys) (d : Dev) (a : Addr) (pkt : Packet) :
    (s.putPool d a pkt).head = update s.head (.pool d) (some a) :=
  Sys.head_setPriv_pool (s := s.write a { pkt with next := (s.priv d).ppool }) rfl

@[simp] theorem Sys.head_putRx (s : Sys) (d : Dev) (a : Addr) (pkt : Packet) :
    (s.putRx d a pkt).head = update s.head (.rx d) (some a) :=
  Sys.head_setPriv_rx (s := s.write a { pkt with next := (s.priv d).rxQueue }) rfl

@[simp] theorem Sys.head_setRxQueue (s : Sys) (d : Dev) (next : Option Addr) :
    (s.setRxQueue d next).head = update s.head (.rx d) next := Sys.head_setPriv_rx rfl

@[simp] theorem Sys.head_setSkb (s : Sys) (d : Dev) (skb : Nat) : (s.setSkb d skb).head = s.head :=
  Sys.head_setPriv_same rfl rfl

@[simp] theorem Sys.head_setStatus (s : Sys) (d : Dev) (v : Status) :
    (s.setStatus d v).head = s.head :=
  Sys.head_setPriv_same rfl rfl

@[simp] theorem Sys.head_setTxPacketlen (s : Sys) (d : Dev) (len : Nat) :
    (s.setTxPacketlen d len).head = s.head :=
  Sys.head_setPriv_same rfl rfl

@[simp] theorem Sys.head_setStopped (s : Sys) (d : Dev) (b : Bool) :
    (s.setStopped d b).head = s.head :=
  Sys.head_setPriv_same rfl rfl

@[simp] theorem Sys.head_setScheduled (s : Sys) (d : Dev) (b : Bool) :
    (s.setScheduled d b).head = s.head :=
  Sys.head_setPriv_same rfl rfl

@[simp] theorem Sys.head_keepLock (s : Sys) (d : Dev) : (s.keepLock d).head = s.head :=
  Sys.head_setPriv_same rfl rfl

@[simp] theorem Sys.head_receive (s : Sys) (d : Dev) (alloc : Bool) (len : Nat) :
    (s.receive d alloc len).head = s.head := Sys.head_setPriv_same rfl rfl

@[simp] theorem Sys.head_countTxError (s : Sys) (d : Dev) : (s.countTxError d).head = s.head :=
  Sys.head_setPriv_same rfl rfl

/-- The interrupt handler leaves the packet buffers alone. -/
theorem napiInterrupt_lists (h : napiInterrupt s d = some s') :
    s'.heap = s.heap ∧ s'.nextAddr = s.nextAddr ∧ s'.head = s.head := by
  unfold napiInterrupt at h
  split at h
  · cases h
  · split at h
    · cases h
      exact ⟨rfl, rfl, Sys.head_setPriv_same (s := s) rfl rfl⟩
    · cases h
      exact ⟨rfl, rfl, Sys.head_setPriv_same rfl rfl⟩

/-! ## the packet buffers -/

/-- The lists of the devices, and the buffers that belong to each of them. -/
structure Stock (s : Sys) (lists : Slot → List Addr) (bufs : Dev → List Addr) : Prop where
  chains : Stacks Packet.next s.heap s.head lists
  dev : ∀ d a, a ∈ bufs d ↔ ∃ pkt, s.heap a = some pkt ∧ pkt.dev = d
  nodup : ∀ d, (bufs d).Nodup
  fresh : ∀ a, s.nextAddr ≤ a → s.heap a = none

variable {lists : Slot → List Addr} {bufs : Dev → List Addr} {a : Addr} {pkt pkt' : Packet}

theorem Stock.dev_eq (h : Stock s lists bufs) (ha : a ∈ bufs d) (hget : s.heap a = some pkt) :
    pkt.dev = d := by
  obtain ⟨pkt', hget', hdev⟩ := (h.dev d a).mp ha
  rw [hget] at hget'
  cases hget'
  exact hdev

theorem Stock.mem_bufs (h : Stock s lists bufs) (hi : a ∈ lists i) :
    ∃ pkt, s.heap a = some pkt ∧ a ∈ bufs pkt.dev := by
  obtain ⟨pkt, hget⟩ := (h.chains i).isSome hi
  exact ⟨pkt, hget, (h.dev _ a).mpr ⟨pkt, hget, rfl⟩⟩

theorem Stock.dev_unique (h : Stock s lists bufs) (ha : a ∈ bufs d) (ha' : a ∈ bufs e) : d = e := by
  obtain ⟨pkt, hget, hdev⟩ := (h.dev d a).mp ha
  exact hdev.symm.trans (h.dev_eq ha' hget)

/-- Where each buffer of a device is in its pool, in the queue of its peer or in
a hand, one in a hand is in no list. -/
theorem Stock.notMem_of_hand (h : Stock s lists bufs) {hand : Dev → List Addr}
    (hplace : ∀ d, (lists (.pool d) ++ lists (.rx d.peer) ++ hand d).Perm (bufs d))
    (ha : a ∈ hand d) (i : Slot) : a ∉ lists i := by
  intro hi
  have hd : a ∈ bufs d := (hplace d).mem_iff.mp (by simp [ha])
  have hdisj := List.disjoint_of_nodup_append ((hplace d).nodup_iff.mpr (h.nodup d))
  cases i with
  | pool e =>
      have he : a ∈ bufs e := (hplace e).mem_iff.mp (by simp [hi])
      obtain rfl := h.dev_unique hd he
      exact hdisj (by simp [hi]) ha
  | rx e =>
      have he : a ∈ bufs e.peer := (hplace e.peer).mem_iff.mp (by simp [hi])
      obtain rfl := h.dev_unique hd he
      exact hdisj (by simp [hi]) ha

/-- The bound of a loop over a list is enough. -/
theorem Stock.length_lt (h : Stock s lists bufs) (i : Slot) :
    (lists i).length < s.nextAddr + 1 := by
  have hsub : lists i ⊆ List.range s.nextAddr := by
    intro a ha
    obtain ⟨pkt, hget, -⟩ := h.mem_bufs ha
    refine List.mem_range.mpr (Nat.lt_of_not_le fun hle => ?_)
    rw [h.fresh a hle] at hget
    cases hget
  have hle := ((h.chains i).nodup.subperm hsub).length_le
  rw [List.length_range] at hle
  exact Nat.lt_succ_of_le hle

/-- The pool of a device, first buffer first. -/
def poolOf (s : Sys) (d : Dev) : List Addr :=
  addresses Packet.next s.heap (s.nextAddr + 1) (s.priv d).ppool

theorem Stock.poolOf_eq (h : Stock s lists bufs) (d : Dev) : poolOf s d = lists (.pool d) :=
  addresses_of_chain (h.chains (.pool d)) (h.length_lt _)

/-- The buffers made for device `d` and not freed. -/
def liveBuffers (s : Sys) (d : Dev) : List Addr :=
  (List.range s.nextAddr).filter fun a => (s.heap a).any fun pkt => pkt.dev = d

/-- The buffers of a device are those that are live. -/
theorem Stock.live_perm (h : Stock s lists bufs) (d : Dev) : (bufs d).Perm (liveBuffers s d) := by
  refine (List.perm_ext_iff_of_nodup (h.nodup d) (List.nodup_range.filter _)).mpr fun a => ?_
  rw [h.dev, List.mem_filter, List.mem_range, Option.any_eq_true]
  constructor
  · rintro ⟨pkt, hget, hdev⟩
    refine ⟨Nat.lt_of_not_le fun hle => ?_, pkt, hget, by simpa using hdev⟩
    rw [h.fresh a hle] at hget
    cases hget
  · rintro ⟨-, pkt, hget, hdev⟩
    exact ⟨pkt, hget, by simpa using hdev⟩

/-- Where heap and heads stay, so does all else. -/
theorem Stock.same (h : Stock s lists bufs) (hheap : s'.heap = s.heap)
    (hnext : s'.nextAddr = s.nextAddr) (hhead : s'.head = s.head) : Stock s' lists bufs where
  chains := by
    rw [hheap, hhead]
    exact h.chains
  dev := by
    rw [hheap]
    exact h.dev
  nodup := h.nodup
  fresh := by
    rw [hheap, hnext]
    exact h.fresh

/-- A store to a buffer that keeps its owner. -/
theorem Stock.dev_update (h : Stock s lists bufs) (hget : s.heap a = some pkt)
    (hdev : pkt'.dev = pkt.dev) :
    ∀ d x, x ∈ bufs d ↔ ∃ p, update s.heap a (some pkt') x = some p ∧ p.dev = d := by
  intro d x
  rw [h.dev d x]
  by_cases hxa : x = a
  · subst hxa
    simp [hget, hdev]
  · simp [hxa]

theorem Stock.fresh_update (h : Stock s lists bufs) (hget : s.heap a = some pkt)
    (o : Option Packet) : ∀ x, s.nextAddr ≤ x → update s.heap a o x = none := by
  intro x hx
  have hold := h.fresh x hx
  rw [update_of_ne, hold]
  rintro rfl
  rw [hget] at hold
  cases hold

/-- A store that keeps the owner and the link of a buffer. -/
theorem Stock.write (h : Stock s lists bufs) (hget : s.heap a = some pkt)
    (hdev : pkt'.dev = pkt.dev) (hnext : pkt'.next = pkt.next) :
    Stock (s.write a pkt') lists bufs where
  chains := h.chains.write (.inr ⟨pkt, hget, hnext⟩)
  dev := h.dev_update hget hdev
  nodup := h.nodup
  fresh := h.fresh_update hget _

/-- The first buffer is taken from a pool. -/
theorem Stock.takePool (h : Stock s lists bufs) (hpool : (s.priv d).ppool = some a)
    (hget : s.heap a = some pkt) :
    lists (.pool d) = a :: (lists (.pool d)).tail ∧
      Stock (s.takePool d pkt.next)
      (update lists (.pool d) (lists (.pool d)).tail) bufs := by
  have hhead : s.head (.pool d) = some a := hpool
  obtain ⟨pkt', l, hget', hl, hstacks⟩ := h.chains.pop hhead
  rw [hget] at hget'
  cases hget'
  rw [hl]
  refine ⟨rfl, ?_, h.dev, h.nodup, h.fresh⟩
  rw [Sys.head_takePool]
  exact hstacks

/-- The first buffer is taken from a receive queue. -/
theorem Stock.takeRx (h : Stock s lists bufs) (hrx : (s.priv d).rxQueue = some a)
    (hget : s.heap a = some pkt) :
    lists (.rx d) = a :: (lists (.rx d)).tail ∧
      Stock (s.setRxQueue d pkt.next)
      (update lists (.rx d) (lists (.rx d)).tail) bufs := by
  have hhead : s.head (.rx d) = some a := hrx
  obtain ⟨pkt', l, hget', hl, hstacks⟩ := h.chains.pop hhead
  rw [hget] at hget'
  cases hget'
  rw [hl]
  refine ⟨rfl, ?_, h.dev, h.nodup, h.fresh⟩
  rw [Sys.head_setRxQueue]
  exact hstacks

/-- A buffer of no list is put into a pool. -/
theorem Stock.putPool (h : Stock s lists bufs) (hget : s.heap a = some pkt)
    (hout : ∀ i, a ∉ lists i) :
    Stock (s.putPool d a pkt) (update lists (.pool d) (a :: lists (.pool d))) bufs where
  chains := by
    rw [Sys.head_putPool]
    exact h.chains.push hout rfl
  dev := h.dev_update hget rfl
  nodup := h.nodup
  fresh := h.fresh_update hget _

/-- A buffer of no list is put into a receive queue. -/
theorem Stock.putRx (h : Stock s lists bufs) (hget : s.heap a = some pkt)
    (hout : ∀ i, a ∉ lists i) :
    Stock (s.putRx d a pkt) (update lists (.rx d) (a :: lists (.rx d))) bufs where
  chains := by
    rw [Sys.head_putRx]
    exact h.chains.push hout rfl
  dev := h.dev_update hget rfl
  nodup := h.nodup
  fresh := h.fresh_update hget _

/-! ## filling a pool -/

theorem Stock.nextAddr_notMem (h : Stock s lists bufs) (i : Slot) : s.nextAddr ∉ lists i := by
  intro hi
  obtain ⟨pkt, hget, -⟩ := h.mem_bufs hi
  rw [h.fresh _ (Nat.le_refl _)] at hget
  cases hget

theorem Stock.nextAddr_notMem_bufs (h : Stock s lists bufs) (d : Dev) : s.nextAddr ∉ bufs d := by
  intro hmem
  obtain ⟨pkt, hget, -⟩ := (h.dev d _).mp hmem
  rw [h.fresh _ (Nat.le_refl _)] at hget
  cases hget

/-- A new buffer is put in front of the pool of its device. -/
theorem Stock.addPacket (h : Stock s lists bufs) (d : Dev) :
    Stock (s.addPacket d) (update lists (.pool d) (s.nextAddr :: lists (.pool d)))
      (update bufs d (s.nextAddr :: bufs d)) where
  chains := by
    have hhead : (s.addPacket d).head = update s.head (.pool d) (some s.nextAddr) :=
      Sys.head_setPriv_pool (s := s) (p := { s.priv d with ppool := some s.nextAddr }) rfl
    rw [hhead]
    exact h.chains.push h.nextAddr_notMem rfl
  dev := by
    intro e x
    have hnew := h.nextAddr_notMem_bufs e
    by_cases hx : x = s.nextAddr
    · subst hx
      by_cases hed : e = d
      · subst hed
        simp [Sys.addPacket]
      · simp [Sys.addPacket, hed, hnew, Ne.symm hed]
    · by_cases hed : e = d
      · subst hed
        simp [Sys.addPacket, hx, h.dev]
      · simp [Sys.addPacket, hx, hed, h.dev]
  nodup := by
    intro e
    by_cases hed : e = d
    · subst hed
      simp [h.nodup, h.nextAddr_notMem_bufs]
    · simp [hed, h.nodup]
  fresh := by
    intro x hx
    have hx' : s.nextAddr + 1 ≤ x := hx
    simp [Sys.addPacket, h.fresh x (Nat.le_of_succ_le hx'), Nat.ne_of_gt hx']

/-- The pool is forgotten. -/
theorem Stock.clearPool (h : Stock s lists bufs) (d : Dev) :
    Stock (s.clearPool d) (update lists (.pool d) []) bufs where
  chains := by
    rw [Sys.head_clearPool]
    intro i
    by_cases hi : i = .pool d
    · subst hi
      simp only [update_self]
      exact .nil
    · rw [update_of_ne hi, update_of_ne hi]
      exact h.chains i
  dev := h.dev
  nodup := h.nodup
  fresh := h.fresh

/-- `dummveth_setup_pool` makes a pool of new buffers. -/
theorem Stock.setupPool (h : Stock s lists bufs) (d : Dev) (poolSize : Nat) :
    ∃ l, l.length = poolSize ∧
      Stock (setupPool s d poolSize) (update lists (.pool d) l)
      (update bufs d (l ++ bufs d)) := by
  induction poolSize with
  | zero =>
      refine ⟨[], rfl, ?_⟩
      rw [List.nil_append, update_eq_self]
      exact h.clearPool d
  | succ k ih =>
      obtain ⟨l, hlen, hl⟩ := ih
      have hadd := hl.addPacket d
      simp only [update_self, Function.update_idem] at hadd
      refine ⟨(Veth.setupPool s d k).nextAddr :: l, by rw [List.length_cons, hlen], ?_⟩
      rw [Veth.setupPool, List.range_succ, List.foldl_concat]
      exact hadd

/-- A new pool changes nothing else. -/
theorem setupPool_frame (s : Sys) (d : Dev) (poolSize : Nat) :
    (setupPool s d poolSize).freed = s.freed ∧
      ∃ p, (setupPool s d poolSize).priv =
        update s.priv d { s.priv d with ppool := p } := by
  induction poolSize with
  | zero => exact ⟨rfl, none, rfl⟩
  | succ k ih =>
      obtain ⟨hfreed, p, hpriv⟩ := ih
      rw [setupPool, List.range_succ, List.foldl_concat]
      refine ⟨hfreed, some (setupPool s d k).nextAddr, ?_⟩
      have hadd : ((setupPool s d k).addPacket d).priv =
          update (setupPool s d k).priv d
            { (setupPool s d k).priv d with ppool := some (setupPool s d k).nextAddr } := rfl
      rw [hpriv, update_self, Function.update_idem] at hadd
      exact hadd

/-- After the setup a device has a pool and nothing else. -/
theorem setup_priv (poolSize : Nat) (d : Dev) :
    ∃ p, (setup poolSize).priv d = { Priv.new with ppool := p } := by
  obtain ⟨-, p₀, h₀⟩ := setupPool_frame ⟨fun _ => none, 0, fun _ => .new, []⟩ .dummveth0 poolSize
  obtain ⟨-, p₁, h₁⟩ :=
    setupPool_frame (setupPool ⟨fun _ => none, 0, fun _ => .new, []⟩ .dummveth0 poolSize)
    .dummveth1 poolSize
  rw [setup, h₁, h₀]
  cases d with
  | dummveth0 => exact ⟨p₀, rfl⟩
  | dummveth1 => exact ⟨p₁, rfl⟩

theorem setup_freed (poolSize : Nat) : (setup poolSize).freed = [] := by
  rw [setup, (setupPool_frame ..).1, (setupPool_frame ..).1]

/-- After `dummveth_setup` every buffer is in the pool of its device. -/
theorem stock_setup (poolSize : Nat) :
    ∃ lists bufs, Stock (setup poolSize) lists bufs ∧
      ∀ d, lists (.rx d) = [] ∧ lists (.pool d) = bufs d ∧ (bufs d).length = poolSize := by
  have hempty : Stock ⟨fun _ => none, 0, fun _ => .new, []⟩ (fun _ => []) fun _ => [] := by
    refine ⟨fun i => ?_, by simp, by simp, fun _ _ => rfl⟩
    cases i <;> exact .nil
  obtain ⟨l₀, hlen₀, h₀⟩ := hempty.setupPool .dummveth0 poolSize
  obtain ⟨l₁, hlen₁, h₁⟩ := h₀.setupPool .dummveth1 poolSize
  refine ⟨_, _, h₁, fun d => ?_⟩
  cases d with
  | dummveth0 => simp [hlen₀]
  | dummveth1 => simp [hlen₁]

end Linuxyz.Veth
