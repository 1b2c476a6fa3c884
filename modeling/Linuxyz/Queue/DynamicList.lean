import Linuxyz.Lib.DoublyLinked
import Linuxyz.Queue.Dynamic

/-!
# Linuxyz.Queue.DynamicList

The linked queue of `dynamic.c` as a data structure: `enqueue` puts a node in front
of the list, `dequeue` takes the last one, and `delete_queue` frees what is left.

`Linked q es` says that the nodes and blocks of the entries `es` are the list from
`qhead` on, and all that is allocated; `Linked.enqueue`, `Linked.dequeue` and
`Linked.deleteQueue` say what the three functions do to it.  A `free` of a block that is
not live is a fault in `Linuxyz.Lib.Heap`, so calls that go through free nothing
twice.
-/

namespace Linuxyz.Queue.Dynamic

variable {α : Type} {q : Bucket α}

/-! ## `delete_queue` and sequences of calls -/

/-- The loop of `delete_queue` from `data` on. -/
def deleteLoop : Nat → Heap Node → Heap α → Option Nat → Option (Heap Node × Heap α)
  | 0, _, _, _ => none
  | _ + 1, nodes, blocks, none => some (nodes, blocks)
  | turns + 1, nodes, blocks, some data => do
      let node ← nodes.block data
      let blocks ← blocks.free node.data
      let nodes ← nodes.free data
      deleteLoop turns nodes blocks node.next

/-- `delete_queue`: what is left of the two heaps.  No list is longer than the number
of nodes that were ever allocated. -/
def deleteQueue (q : Bucket α) : Option (Heap Node × Heap α) :=
  deleteLoop (q.nodes.next + 1) q.nodes q.blocks q.qhead

inductive Call (α : Type) where
  | enqueue (data : α)
  | dequeue

/-- The queue, and the items that `dequeue` has copied out so far. -/
structure Used (α : Type) where
  q : Bucket α
  out : List α

/-- One caller; a signal has nobody to reach. -/
def calls (α : Type) (limit : UInt32) : System (Used α) (Call α) where
  init s := s = ⟨makeQueue limit, []⟩
  step s
    | .enqueue data => (Dynamic.enqueue s.q data).map fun (q, _) => ⟨q, s.out⟩
    | .dequeue => (Dynamic.dequeue s.q).map fun (data, q, _) => ⟨q, s.out ++ [data]⟩

/-- The calls that do not have to wait. -/
def Ready (s : Used α) : Call α → Prop
  | .enqueue _ => s.q.len < s.q.limit
  | .dequeue => 0 < s.q.len

/-- What the calls are for: the items in the queue, oldest first, and those that came
out. -/
def fifo : List α × List α → Call α → List α × List α
  | (items, out), .enqueue data => (items ++ [data], out)
  | (items, out), .dequeue => (items.tail, out ++ items.head?.toList)

/-! ## The list in the heap -/

/-- A node, its data block and the item in it. -/
structure Entry (α : Type) where
  node : Nat
  block : Nat
  item : α

/-- The queue is the list of the entries, newest first, and nothing else is
allocated. -/
structure Linked (q : Bucket α) (es : List (Entry α)) : Prop where
  linked : DoublyLinked Node.prev Node.next q.nodes.block (es.map Entry.node)
  head : q.qhead = (es.map Entry.node).head?
  tail : q.qtail = (es.map Entry.node).getLast?
  len : q.len.toNat = es.length
  data : ∀ e ∈ es, ∀ node, q.nodes.block e.node = some node → node.data = e.block
  item : ∀ e ∈ es, q.blocks.block e.block = some e.item
  nodup : (es.map Entry.block).Nodup
  liveNode : ∀ a node, q.nodes.block a = some node → a ∈ es.map Entry.node
  liveBlock : ∀ a x, q.blocks.block a = some x → a ∈ es.map Entry.block

/-- A new queue has no nodes. -/
theorem linked_makeQueue (limit : UInt32) : Linked (makeQueue limit : Bucket α) [] where
  linked := .nil
  head := rfl
  tail := rfl
  len := rfl
  data _ h := absurd h List.not_mem_nil
  item _ h := absurd h List.not_mem_nil
  nodup := List.nodup_nil
  liveNode _ _ h := by cases h
  liveBlock _ _ h := by cases h

variable {es : List (Entry α)}

/-- An entry of the queue has a node. -/
theorem Linked.node_live (h : Linked q es) {e : Entry α} (he : e ∈ es) :
    ∃ node, q.nodes.block e.node = some node ∧ node.data = e.block := by
  obtain ⟨node, hnode⟩ := h.linked.chain_next.isSome (List.mem_map_of_mem he)
  exact ⟨node, hnode, h.data e he node hnode⟩

/-! ## `enqueue` -/

/-- The heap of nodes after `enqueue`, on a list that is linked. -/
theorem enqueue_nodes (h : Linked q es) (data : α) :
    ∃ nodes signal, Dynamic.enqueue q data = some (⟨q.limit, q.len + 1, some q.nodes.next,
        if es = [] then some q.nodes.next else q.qtail, nodes, q.blocks.malloc data⟩, signal) ∧
      nodes.block q.nodes.next = some ⟨q.blocks.next, none, q.qhead⟩ ∧
      (∀ b node, q.qhead = some b → q.nodes.block b = some node →
        nodes.block b = some ⟨node.data, some q.nodes.next, node.next⟩) ∧
      ∀ b, b ≠ q.nodes.next → q.qhead ≠ some b → nodes.block b = q.nodes.block b := by
  have hnew := Heap.block_malloc_self q.nodes ⟨q.blocks.next, none, q.qhead⟩
  have hlen := h.len
  cases es with
  | nil =>
      have hzero : q.len = 0 := UInt32.toNat_inj.mp hlen
      refine ⟨q.nodes.malloc ⟨q.blocks.next, none, q.qhead⟩, true, ?_,
        hnew, fun b node hb => ?_, fun b hb _ => ?_⟩
      · rw [Dynamic.enqueue, if_pos hzero, if_pos rfl]
      · rw [h.head] at hb
        cases hb
      · exact Heap.block_malloc_of_ne _ _ hb
  | cons e es =>
      have hne : q.len ≠ 0 := fun hzero => by simp [hzero] at hlen
      obtain ⟨node, hnode, -⟩ := h.node_live (e := e) (by simp)
      have hhead : q.qhead = some e.node := h.head
      have hmalloc := Heap.block_malloc_of_live hnode ⟨q.blocks.next, none, q.qhead⟩
      obtain ⟨nodes, hstore, hself⟩ :=
        Heap.store_of_live hmalloc ⟨node.data, some q.nodes.next, node.next⟩
      refine ⟨nodes, false, ?_, ?_, fun b node' hb hb' => ?_, fun b hb hb' => ?_⟩
      · simp only [Dynamic.enqueue, if_neg hne, hhead, Option.bind_eq_bind,
          Option.bind_some] at hmalloc hstore ⊢
        rw [hmalloc, Option.bind_some, hstore, Option.bind_some, if_neg (List.cons_ne_nil e es)]
      · rw [Heap.block_of_store hstore (Heap.ne_next_of_live hnode).symm, hnew]
      · rw [hhead, Option.some.injEq] at hb
        subst hb
        rw [hnode, Option.some.injEq] at hb'
        rw [hself, hb']
      · have hbe : b ≠ e.node := fun heq => hb' (by rw [hhead, heq])
        rw [Heap.block_of_store hstore hbe, Heap.block_malloc_of_ne _ _ hb]

/-- `enqueue` puts an entry in front. -/
theorem Linked.enqueue (h : Linked q es) (hroom : q.len < q.limit) (data : α) :
    ∃ q' signal, Dynamic.enqueue q data = some (q', signal) ∧ q'.limit = q.limit ∧
      Linked q' (⟨q.nodes.next, q.blocks.next, data⟩ :: es) := by
  obtain ⟨nodes, signal, heq, hnew, hhead, hother⟩ := enqueue_nodes h data
  refine ⟨_, signal, heq, rfl, ?_⟩
  have hlen := h.len
  have hlt : q.len.toNat < q.limit.toNat := UInt32.lt_iff_toNat_lt.mp hroom
  have hmax := q.limit.toNat_lt
  have hfresh : ∀ b ∈ es.map Entry.node, b ≠ q.nodes.next := fun b hb => by
    obtain ⟨node, hnode⟩ := h.linked.chain_next.isSome hb
    exact Heap.ne_next_of_live hnode
  have hnodup := h.linked.nodup
  constructor
  case linked =>
    refine h.linked.push hnew rfl h.head
      (fun b node hb hnode => ⟨_, hhead b node (h.head.trans hb) hnode, rfl, rfl⟩) ?_
    intro b hb
    refine hother b (hfresh b (List.mem_of_mem_tail hb)) fun hq => ?_
    rw [h.head] at hq
    obtain ⟨rest, hrest⟩ := List.head?_eq_some_iff.mp hq
    rw [hrest] at hb hnodup
    exact (List.nodup_cons.mp hnodup).1 hb
  case head => rfl
  case tail =>
    cases es with
    | nil => rfl
    | cons e es =>
        simp only [if_neg (List.cons_ne_nil e es), h.tail, List.map_cons]
        rw [List.getLast?_cons_cons]
  case len =>
    rw [List.length_cons, UInt32.toNat_add, hlen]
    exact Nat.mod_eq_of_lt (by simp; omega)
  case data =>
    intro e he node hnode
    rcases List.mem_cons.mp he with rfl | he
    · rw [hnew] at hnode
      cases hnode
      rfl
    · -- the data pointer of an old node is not written
      obtain ⟨old, hold, hdata⟩ := h.node_live he
      by_cases hq : q.qhead = some e.node
      · rw [hhead _ old hq hold] at hnode
        cases hnode
        exact hdata
      · rw [hother _ (hfresh _ (List.mem_map_of_mem he)) hq] at hnode
        exact h.data e he node hnode
  case item =>
    intro e he
    rcases List.mem_cons.mp he with rfl | he
    · exact Heap.block_malloc_self _ _
    · exact Heap.block_malloc_of_live (h.item e he) _
  case nodup =>
    refine List.nodup_cons.mpr ⟨fun hmem => ?_, h.nodup⟩
    obtain ⟨e, he, heq⟩ := List.mem_map.mp hmem
    exact Heap.ne_next_of_live (h.item e he) heq
  case liveNode =>
    intro a node ha
    by_cases hnext : a = q.nodes.next
    · exact List.mem_cons.mpr (.inl hnext)
    · refine List.mem_cons_of_mem _ ?_
      by_cases hq : q.qhead = some a
      · exact List.mem_of_head? (h.head ▸ hq)
      · rw [hother a hnext hq] at ha
        exact h.liveNode a node ha
  case liveBlock =>
    intro a x ha
    by_cases hnext : a = q.blocks.next
    · exact List.mem_cons.mpr (.inl hnext)
    · rw [Heap.block_malloc_of_ne _ _ hnext] at ha
      exact List.mem_cons_of_mem _ (h.liveBlock a x ha)

/-! ## `dequeue` -/

/-- What `dequeue` does to the heaps, on a list that is linked. -/
theorem dequeue_heaps {e : Entry α} (h : Linked q (es ++ [e])) :
    ∃ nodes blocks signal, Dynamic.dequeue q =
      some (e.item, ⟨q.limit, q.len - 1, if es = [] then none else q.qhead,
        (es.map Entry.node).getLast?, nodes, blocks⟩, signal) ∧
      nodes.block e.node = none ∧
      (∀ b node, (es.map Entry.node).getLast? = some b → q.nodes.block b = some node →
        nodes.block b = some ⟨node.data, node.prev, none⟩) ∧
      (∀ b, b ≠ e.node → (es.map Entry.node).getLast? ≠ some b → nodes.block b = q.nodes.block b) ∧
      blocks.block e.block = none ∧ ∀ b, b ≠ e.block → blocks.block b = q.blocks.block b := by
  have hlen := h.len
  have hmem : e ∈ es ++ [e] := by simp
  have htail : q.qtail = some e.node := by
    rw [h.tail, List.map_append, List.map_singleton, List.getLast?_concat]
  obtain ⟨node, hnode, hprev, -⟩ :=
    h.linked (es.map Entry.node) e.node [] (by rw [List.map_append, List.map_singleton])
  have hdata : node.data = e.block := h.data e hmem node hnode
  have hitem := h.item e hmem
  obtain ⟨blocks, hblocks, -, hblocks'⟩ := Heap.free_of_live hitem
  obtain ⟨nodes, hnodes, -, hnodes'⟩ := Heap.free_of_live hnode
  cases hes : es.getLast? with
  | none =>
      have hnil : es = [] := List.getLast?_eq_none_iff.mp hes
      subst hnil
      have hone : q.len = 1 := UInt32.toNat_inj.mp hlen
      refine ⟨nodes, blocks, false, ?_,
        Heap.block_of_free hnodes, fun b node hb => ?_, fun b hb _ => hnodes' b hb,
        Heap.block_of_free hblocks, hblocks'⟩
      · simp only [Dynamic.dequeue, htail, Option.bind_eq_bind, Option.bind_some, hnode, hdata,
          hitem, hblocks, hnodes]
        rw [if_pos hone]
        rfl
      · cases hb
  | some f =>
      have hne : es ≠ [] := fun hnil => by rw [hnil] at hes; cases hes
      have hpos : 0 < es.length := List.length_pos_of_ne_nil hne
      have hmore : q.len ≠ 1 := fun hone => by
        rw [List.length_append, List.length_singleton, hone] at hlen
        exact absurd hlen (by simp; omega)
      have hlast : (es.map Entry.node).getLast? = some f.node := by
        rw [List.getLast?_map, hes, Option.map_some]
      have hfmem : f ∈ es ++ [e] := List.mem_append_left _ (List.mem_of_getLast? hes)
      obtain ⟨last, hflive, -⟩ := h.node_live hfmem
      have hfe : f.node ≠ e.node := fun heq => by
        have hnodup := h.linked.nodup
        rw [List.map_append, List.nodup_append] at hnodup
        exact hnodup.2.2 f.node (List.mem_map_of_mem (List.mem_of_getLast? hes)) e.node
          (by simp) heq
      have hfree : nodes.block f.node = some last := by rw [hnodes' _ hfe, hflive]
      obtain ⟨nodes₁, hstore, hself⟩ := Heap.store_of_live hfree ⟨last.data, last.prev, none⟩
      refine ⟨nodes₁, blocks, q.len = q.limit, ?_, ?_, fun b node' hb hb' => ?_, fun b hb hb' => ?_,
        Heap.block_of_free hblocks, hblocks'⟩
      · simp only [Dynamic.dequeue, htail, Option.bind_eq_bind, Option.bind_some, hnode, hdata,
          hitem, hblocks, hnodes, if_neg hmore, if_neg hne, hprev, hlast, hfree, hstore]
      · rw [Heap.block_of_store hstore hfe.symm, Heap.block_of_free hnodes]
      · rw [hlast, Option.some.injEq] at hb
        subst hb
        rw [hflive, Option.some.injEq] at hb'
        rw [hself, hb']
      · have hbf : b ≠ f.node := fun heq => hb' (by rw [hlast, heq])
        rw [Heap.block_of_store hstore hbf, hnodes' b hb]

/-- `dequeue` takes the last entry away. -/
theorem Linked.dequeue {e : Entry α} (h : Linked q (es ++ [e])) :
    ∃ q' signal, Dynamic.dequeue q = some (e.item, q', signal) ∧ q'.limit = q.limit ∧
      Linked q' es := by
  obtain ⟨nodes, blocks, signal, heq, hnone, hlast, hother, hbnone, hbother⟩ := dequeue_heaps h
  refine ⟨_, signal, heq, rfl, ?_⟩
  have hlen := h.len
  have hmap : (es ++ [e]).map Entry.node = es.map Entry.node ++ [e.node] := by
    rw [List.map_append, List.map_singleton]
  have hnodup := h.linked.nodup
  rw [hmap, List.nodup_append] at hnodup
  have hne : ∀ b ∈ es.map Entry.node, b ≠ e.node := fun b hb => hnodup.2.2 b hb e.node (by simp)
  have hbnodup := h.nodup
  rw [List.map_append, List.map_singleton, List.nodup_append] at hbnodup
  have hold : ∀ f ∈ es, f ∈ es ++ [e] := fun f hf => List.mem_append_left _ hf
  constructor
  case linked =>
    refine (hmap ▸ h.linked).pop (fun b node hb hnode => ⟨_, hlast b node hb hnode, rfl, rfl⟩)
      fun b hb => ?_
    refine hother b (hne b ((List.dropLast_sublist _).subset hb)) fun hq => ?_
    obtain ⟨front, hfront⟩ := List.getLast?_eq_some_iff.mp hq
    have hd := hnodup.1
    rw [hfront, List.nodup_append] at hd
    rw [hfront, List.dropLast_concat] at hb
    exact hd.2.2 b hb b (by simp) rfl
  case head =>
    cases es with
    | nil => rfl
    | cons f es => exact h.head
  case tail => rfl
  case len =>
    rw [List.length_append, List.length_singleton] at hlen
    rw [UInt32.toNat_sub_of_le _ _ (UInt32.le_iff_toNat_le.mpr (by rw [hlen]; simp)), hlen]
    simp
  case data =>
    intro f hf node hnode
    obtain ⟨old, hfold, hdata⟩ := h.node_live (hold f hf)
    by_cases hq : (es.map Entry.node).getLast? = some f.node
    · rw [hlast _ old hq hfold] at hnode
      cases hnode
      exact hdata
    · rw [hother _ (hne _ (List.mem_map_of_mem hf)) hq] at hnode
      exact h.data f (hold f hf) node hnode
  case item =>
    intro f hf
    rw [hbother _ (hbnodup.2.2 f.block (List.mem_map_of_mem hf) e.block (by simp))]
    exact h.item f (hold f hf)
  case nodup => exact hbnodup.1
  case liveNode =>
    intro a node ha
    have hae : a ≠ e.node := fun heq => by rw [heq, hnone] at ha; cases ha
    by_cases hq : (es.map Entry.node).getLast? = some a
    · exact List.mem_of_getLast? hq
    · rw [hother a hae hq] at ha
      have hmem := h.liveNode a node ha
      rw [hmap, List.mem_append, List.mem_singleton] at hmem
      exact hmem.resolve_right hae
  case liveBlock =>
    intro a x ha
    have hae : a ≠ e.block := fun heq => by rw [heq, hbnone] at ha; cases ha
    rw [hbother a hae] at ha
    have hmem := h.liveBlock a x ha
    rw [List.map_append, List.map_singleton, List.mem_append, List.mem_singleton] at hmem
    exact hmem.resolve_right hae

/-! ## `delete_queue` -/

/-- The loop frees the nodes of a chain and their blocks, and nothing else. -/
theorem deleteLoop_of_chain : ∀ (es : List (Entry α)) {nodes : Heap Node} {blocks : Heap α}
    {p : Option Nat} {turns : Nat}, Chain Node.next nodes.block p (es.map Entry.node) →
    (∀ e ∈ es, ∀ node, nodes.block e.node = some node → node.data = e.block) →
    (∀ e ∈ es, blocks.block e.block = some e.item) → (es.map Entry.block).Nodup →
    es.length < turns → ∃ nodes' blocks', deleteLoop turns nodes blocks p = some (nodes', blocks') ∧
      (∀ a, nodes'.block a = if a ∈ es.map Entry.node then none else nodes.block a) ∧
      ∀ a, blocks'.block a = if a ∈ es.map Entry.block then none else blocks.block a
  | [], nodes, blocks, p, turns + 1, hchain, _, _, _, _ => by
      cases hchain
      exact ⟨nodes, blocks, rfl, by simp, by simp⟩
  | e :: es, nodes, blocks, p, turns + 1, hchain, hdata, hitem, hnodup, hturns => by
      have hnd := hchain.nodup
      rw [List.map_cons, List.nodup_cons] at hnd hnodup
      cases hchain with
      | @cons _ node _ hnode hrest =>
          have hblock : node.data = e.block := hdata e (by simp) node hnode
          obtain ⟨blocks₁, hblocks, -, hblocks'⟩ := Heap.free_of_live (hitem e (by simp))
          obtain ⟨nodes₁, hnodes, -, hnodes'⟩ := Heap.free_of_live hnode
          have hnode₁ : ∀ f ∈ es, nodes₁.block f.node = nodes.block f.node := fun f hf =>
            hnodes' _ fun heq => hnd.1 (heq ▸ List.mem_map_of_mem hf)
          have hblock₁ : ∀ f ∈ es, blocks₁.block f.block = blocks.block f.block := fun f hf =>
            hblocks' _ fun heq => hnodup.1 (heq ▸ List.mem_map_of_mem hf)
          have hchain₁ : Chain Node.next nodes₁.block node.next (es.map Entry.node) := by
            refine hrest.congr fun a ha n hn => ⟨n, ?_, rfl⟩
            obtain ⟨f, hf, rfl⟩ := List.mem_map.mp ha
            rw [hnode₁ f hf, hn]
          obtain ⟨nodes₂, blocks₂, hloop, hn₂, hb₂⟩ := deleteLoop_of_chain es hchain₁
            (fun f hf n hn => hdata f (by simp [hf]) n (hnode₁ f hf ▸ hn))
            (fun f hf => by rw [hblock₁ f hf, hitem f (by simp [hf])]) hnodup.2
              (Nat.lt_of_succ_lt_succ hturns)
          refine ⟨nodes₂, blocks₂, ?_, fun a => ?_, fun a => ?_⟩
          · simp only [deleteLoop, Option.bind_eq_bind, hnode, Option.bind_some, hblock, hblocks,
              hnodes, hloop]
          · rw [hn₂, List.map_cons, Heap.block_of_free_cons hnodes]
          · rw [hb₂, List.map_cons, Heap.block_of_free_cons hblocks]

/-- `delete_queue` frees exactly what is left. -/
theorem Linked.deleteQueue (h : Linked q es) :
    ∃ nodes blocks, Dynamic.deleteQueue q = some (nodes, blocks) ∧ (∀ a, nodes.block a = none) ∧
      ∀ a, blocks.block a = none := by
  have hturns : es.length < q.nodes.next + 1 := by
    have hsub : es.map Entry.node ⊆ List.range q.nodes.next := fun a ha => by
      obtain ⟨node, hnode⟩ := h.linked.chain_next.isSome ha
      refine List.mem_range.mpr (Nat.lt_of_not_le fun hle => ?_)
      rw [q.nodes.fresh a hle] at hnode
      cases hnode
    have hle := (List.subperm_of_subset h.linked.nodup hsub).length_le
    rw [List.length_map, List.length_range] at hle
    omega
  obtain ⟨nodes, blocks, hloop, hnodes, hblocks⟩ :=
    deleteLoop_of_chain es (h.head ▸ h.linked.chain_next) h.data h.item h.nodup hturns
  refine ⟨nodes, blocks, hloop, fun a => ?_, fun a => ?_⟩
  · rw [hnodes a]
    split
    · rfl
    · next hout =>
        exact Option.eq_none_iff_forall_ne_some.mpr fun node hnode =>
          hout (h.liveNode a node hnode)
  · rw [hblocks a]
    split
    · rfl
    · next hout => exact Option.eq_none_iff_forall_ne_some.mpr fun x hx => hout (h.liveBlock a x hx)

/-! ## Every sequence of calls -/

/-- The entries of the queue hold the items, oldest last, within the limit. -/
def Refines (limit : UInt32) (s : Used α) (l : List α × List α) : Prop :=
  s.q.limit = limit ∧ s.out = l.2 ∧ s.q.len ≤ limit ∧ ∃ es, Linked s.q es ∧
    es.map Entry.item = l.1.reverse

/-- One call does to the linked list what it does to the queue of items. -/
theorem Refines.step {limit : UInt32} {s : Used α} {l : List α × List α} {c : Call α}
    (h : Refines limit s l) (hc : Ready s c) :
    ∃ s', (calls α limit).step s c = some s' ∧ Refines limit s' (fifo l c) := by
  obtain ⟨hlimit, hout, hle, es, hes, hitems⟩ := h
  cases c with
  | enqueue data =>
      have hroom : s.q.len < s.q.limit := hc
      obtain ⟨q', signal, heq, hlimit', hes'⟩ := hes.enqueue hroom data
      refine ⟨⟨q', s.out⟩, ?_, hlimit'.trans hlimit, hout, ?_, _, hes', ?_⟩
      · simp only [calls, heq, Option.map_some]
      · have hlt := UInt32.lt_iff_toNat_lt.mp hroom
        rw [UInt32.le_iff_toNat_le, hes'.len, List.length_cons, ← hes.len, ← hlimit]
        omega
      · simp only [fifo, List.map_cons, hitems, List.reverse_append, List.reverse_singleton,
          List.singleton_append]
  | dequeue =>
      have hpos : 0 < s.q.len.toNat := UInt32.lt_iff_toNat_lt.mp hc
      rcases List.eq_nil_or_concat' es with rfl | ⟨es, e, rfl⟩
      · rw [hes.len] at hpos
        exact absurd hpos (Nat.lt_irrefl 0)
      · obtain ⟨q', signal, heq, hlimit', hes'⟩ := hes.dequeue
        have hl : l.1 = e.item :: (es.map Entry.item).reverse := by
          rw [← List.reverse_reverse l.1, ← hitems]
          simp
        refine ⟨⟨q', s.out ++ [e.item]⟩, ?_, hlimit'.trans hlimit, ?_, ?_, _, hes', ?_⟩
        · simp only [calls, heq, Option.map_some]
        · simp only [fifo, hl, hout, List.head?_cons, Option.toList_some]
        · have hlen := hes.len
          have hle' := UInt32.le_iff_toNat_le.mp hle
          rw [List.length_append, List.length_singleton] at hlen
          rw [UInt32.le_iff_toNat_le, hes'.len]
          omega
        · simp only [fifo, hl, List.tail_cons, List.reverse_reverse]

instance (s : Used α) : (c : Call α) → Decidable (Ready s c)
  | .enqueue _ => inferInstanceAs (Decidable (_ < _))
  | .dequeue => inferInstanceAs (Decidable (_ < _))

/-- **The linked queue is a FIFO list**: every sequence of calls that do not have to
wait goes through.  The chains from `qhead` and from `qtail` then pass through the same
`len` nodes in opposite orders, at most `limit` of them; each `dequeue` has copied out
the oldest item; these nodes and the blocks they point to are all that is not freed;
and `delete_queue` frees exactly them. -/
theorem linked_queue_fifo {limit : UInt32} {cs : List (Call α)}
    (h : (calls α limit).Meets Ready ⟨makeQueue limit, []⟩ cs) :
    ∃ s ns, (calls α limit).run ⟨makeQueue limit, []⟩ cs = some s ∧
      Chain Node.next s.q.nodes.block s.q.qhead ns ∧
      Chain Node.prev s.q.nodes.block s.q.qtail ns.reverse ∧
      ns.length = s.q.len.toNat ∧ s.q.len ≤ limit ∧ s.out = (cs.foldl fifo ([], [])).2 ∧
      (∀ a, (∃ node, s.q.nodes.block a = some node) ↔ a ∈ ns) ∧
      (∀ b, (∃ x, s.q.blocks.block b = some x) ↔ ∃ a ∈ ns, ∃ node, s.q.nodes.block a = some node ∧
        node.data = b) ∧
      ∃ nodes blocks, deleteQueue s.q = some (nodes, blocks) ∧ (∀ a, nodes.block a = none) ∧
        ∀ b, blocks.block b = none := by
  obtain ⟨s, hrun, -, hout, hle, es, hes, -⟩ :=
    h.refines (R := Refines limit) (f := fifo) (l := ([], []))
    (fun s l c hR hc => hR.step hc) ⟨rfl, rfl, UInt32.zero_le, [], linked_makeQueue limit, rfl⟩
  refine ⟨s, es.map Entry.node, hrun, hes.head ▸ hes.linked.chain_next,
    hes.tail ▸ hes.linked.chain_prev, ?_, hle,
    hout, fun a => ⟨fun ⟨node, ha⟩ => hes.liveNode a node ha,
      fun ha => hes.linked.chain_next.isSome ha⟩, fun b => ?_, hes.deleteQueue⟩
  · rw [List.length_map, hes.len]
  · constructor
    · rintro ⟨x, hx⟩
      obtain ⟨e, he, rfl⟩ := List.mem_map.mp (hes.liveBlock b x hx)
      exact ⟨e.node, List.mem_map_of_mem he, hes.node_live he⟩
    · rintro ⟨a, ha, node, hnode, rfl⟩
      obtain ⟨e, he, rfl⟩ := List.mem_map.mp ha
      exact ⟨e.item, hes.data e he node hnode ▸ hes.item e he⟩

/-- Through a queue of two slots. -/
theorem linked_queue_fifo_two :
    (calls Nat 2).Meets Ready ⟨makeQueue 2, []⟩ [.enqueue 5, .enqueue 6, .dequeue,
      .enqueue 7, .dequeue] ∧
      ∃ s, (calls Nat 2).run ⟨makeQueue 2, []⟩ [.enqueue 5, .enqueue 6, .dequeue, .enqueue 7,
        .dequeue] = some s ∧ s.out = [5, 6] := by
  have h :
      (calls Nat 2).Meets Ready ⟨makeQueue 2, []⟩ [.enqueue 5, .enqueue 6, .dequeue, .enqueue 7,
        .dequeue] := by
    decide +kernel
  obtain ⟨s, ns, hrun, -, -, -, -, hout, -⟩ := linked_queue_fifo h
  exact ⟨h, s, hrun, hout⟩

end Linuxyz.Queue.Dynamic
