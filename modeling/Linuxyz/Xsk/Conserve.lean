import Mathlib.Data.List.Nodup
import Mathlib.Data.List.Range
import Linuxyz.Lib.Counting
import Linuxyz.Xsk.Pool

/-!
# Linuxyz.Xsk.Conserve

Conservation of the buffers of a pool: in every interleaving of its users each
buffer is in a full slab of the pool, in a cache or out with a user, no slab has
two owners, and a cache that trades a full slab finds an empty one in the pool.

The last is a count: the full slabs of the pool, the full slab of the cache and
the buffer that is being returned are together at most all buffers, so there are
fewer full slabs in the pool than it has places.

All of this is so when the addresses of the slabs are different.  `bpool_init`
computes the size of the reserved slabs with 64 bits; where that overflows, the
address of a reserved slab wraps around to one of the pool.
-/

namespace Linuxyz.Xsk

open List (append_nil count_append count_cons count_nil flatMap_append map_append mem_map
  mem_of_getElem? mem_range nodup_append range_succ)

/-! ## Slabs in memory -/

variable {p : Params}

theorem count_cells_zero (mem : Nat → Nat) (slab a : Nat) : (cells mem slab 0).count a = 0 := by
  rw [cells, List.range_zero, List.map_nil, count_nil]

theorem cells_succ (mem : Nat → Nat) (slab n : Nat) :
    cells mem slab (n + 1) = cells mem slab n ++ [mem (slab + n)] := by
  rw [cells, range_succ, map_append]
  rfl

theorem length_cells (mem : Nat → Nat) (slab n : Nat) : (cells mem slab n).length = n := by
  rw [cells, List.length_map, List.length_range]

/-- A store outside of the slots leaves them alone. -/
theorem cells_update {mem : Nat → Nat} {slab n addr : Nat}
    (h : addr < slab ∨ slab + n ≤ addr) (v : Nat) :
    cells (Function.update mem addr v) slab n = cells mem slab n := by
  apply List.map_congr_left
  intro k hk
  have hlt := List.mem_range.mp hk
  exact Function.update_of_ne (by omega) ..

/-- A store to the first free slot. -/
theorem cells_update_succ (mem : Nat → Nat) (slab n v : Nat) :
    cells (Function.update mem (slab + n) v) slab (n + 1) = cells mem slab n ++ [v] := by
  rw [cells_succ, cells_update (.inr (Nat.le_refl _)), Function.update_self]

/-- The slabs of a pool by their number; the reserved ones follow the others. -/
def slabAddrs (p : Params) : List Nat :=
  (List.range (p.nSlabs + p.nSlabsReserved)).map (p.perSlab * ·)

theorem nodup_slabAddrs (h : 0 < p.perSlab) : (slabAddrs p).Nodup :=
  List.nodup_range.map fun _ _ heq => Nat.eq_of_mul_eq_mul_left h heq

/-- Different slabs do not overlap. -/
theorem apart_of_mem_slabAddrs {q r : Nat} (hq : q ∈ slabAddrs p) (hr : r ∈ slabAddrs p)
    (hne : q ≠ r) : q + p.perSlab ≤ r ∨ r + p.perSlab ≤ q := by
  obtain ⟨i, -, rfl⟩ := List.mem_map.mp hq
  obtain ⟨j, -, rfl⟩ := List.mem_map.mp hr
  rcases Nat.lt_or_gt_of_ne (show i ≠ j from fun hij => hne (by rw [hij])) with hlt | hlt
  · exact .inl (Nat.mul_le_mul_left p.perSlab hlt)
  · exact .inr (Nat.mul_le_mul_left p.perSlab hlt)

/-- The pool with one more full slab. -/
theorem flatMap_cells_succ (mem slabs : Nat → Nat) (perSlab n slab : Nat) :
    ((List.range (n + 1)).flatMap fun i => cells mem (Function.update slabs n slab i) perSlab) =
      ((List.range n).flatMap fun i => cells mem (slabs i) perSlab) ++ cells mem slab perSlab := by
  rw [range_succ, flatMap_append, List.flatMap_singleton, Function.update_self]
  congr 1
  apply List.flatMap_congr
  intro i hi
  rw [Function.update_of_ne (Nat.ne_of_lt (List.mem_range.mp hi))]

/-- The pool with one full slab less. -/
theorem flatMap_cells_pred (mem slabs : Nat → Nat) (perSlab n slab : Nat) :
    ((List.range (n + 1)).flatMap fun i => cells mem (slabs i) perSlab) =
      ((List.range n).flatMap fun i => cells mem (Function.update slabs n slab i) perSlab) ++
        cells mem (slabs n) perSlab := by
  rw [range_succ, flatMap_append, List.flatMap_singleton]
  congr 1
  apply List.flatMap_congr
  intro i hi
  rw [Function.update_of_ne (Nat.ne_of_lt (List.mem_range.mp hi))]

/-! ## The invariant -/

/-- A cache keeps within its slabs, and what is granted is there. -/
structure Cache.Sound (perSlab : Nat) (bc : Cache) : Prop where
  cons : bc.consCount perSlab ≤ perSlab
  prod : bc.nBuffersProd ≤ perSlab
  granted : bc.granted ≤ bc.nBuffersCons
  consuming : ∀ slabFull n, bc.phase = .consuming slabFull n → n ≤ perSlab

structure Inv (p : Params) (s : State) : Prop where
  slabs : (s.allSlabs p).Perm (slabAddrs p)
  buffers : (s.inPool p ++ s.inCaches p ++ s.out).Perm p.buffers
  available : s.nSlabsAvailable ≤ p.nSlabs
  reserved : s.nSlabsReservedAvailable % 2 = 0
  caches : ∀ bc ∈ s.caches, bc.Sound p.perSlab

section Steps

variable {s : State} {c : Nat} {bc : Cache}

/-- What the other caches have is not in the slabs of this one. -/
theorem Inv.nodup (hpos : 0 < p.perSlab) (h : Inv p s) (hc : s.caches[c]? = some bc) :
    ((List.range p.nSlabs).map s.slabs ++
      (bc.slabs ++ (s.caches.eraseIdx c).flatMap Cache.slabs)).Nodup := by
  obtain ⟨hlt, rfl⟩ := List.getElem?_eq_some_iff.mp hc
  have hnodup := h.slabs.nodup_iff.mpr (nodup_slabAddrs hpos)
  have hperm := (List.getElem_cons_eraseIdx_perm hlt).flatMap_right Cache.slabs
  rw [State.allSlabs, List.append_assoc] at hnodup
  have hsub : ((List.range p.nSlabs).map s.slabs ++ s.caches.flatMap Cache.slabs).Nodup :=
    hnodup.sublist (.append_left (List.sublist_append_right _ _) _)
  exact (hperm.append_left _).nodup_iff.mpr hsub

theorem Inv.mem_slabAddrs (h : Inv p s) (hc : bc ∈ s.caches) {q : Nat} (hq : q ∈ bc.slabs) :
    q ∈ slabAddrs p :=
  h.slabs.mem_iff.mp (List.mem_append_right _ (List.mem_flatMap.mpr ⟨bc, hc, hq⟩))

theorem Inv.slab_mem_slabAddrs (h : Inv p s) {i : Nat} (hi : i < p.nSlabs) :
    s.slabs i ∈ slabAddrs p := by
  refine h.slabs.mem_iff.mp (List.mem_append_left _ (List.mem_append_left _ ?_))
  exact List.mem_map.mpr ⟨i, List.mem_range.mpr hi, rfl⟩

/-- A step that replaces one cache, when the slabs and the buffers that go out of it
come in elsewhere and the other caches are left alone. -/
theorem Inv.replace (h : Inv p s) (hc : s.caches[c]? = some bc) {slabs mem : Nat → Nat}
    {avail : Nat} {bc' : Cache} {out : List Nat}
    (hslabs : ∀ a, ((List.range p.nSlabs).map slabs).count a + bc'.slabs.count a =
      ((List.range p.nSlabs).map s.slabs).count a + bc.slabs.count a)
    (hothers : ∀ z ∈ s.caches.eraseIdx c, z.contents p.perSlab mem = z.contents p.perSlab s.mem)
    (hbuffers : ∀ a, ((List.range avail).flatMap fun i => cells mem (slabs i) p.perSlab).count a +
        (bc'.contents p.perSlab mem).count a + out.count a =
      (s.inPool p).count a + (bc.contents p.perSlab s.mem).count a + s.out.count a)
    (havail : avail ≤ p.nSlabs) (hsound : bc'.Sound p.perSlab) :
    Inv p ⟨slabs, avail, s.slabsReserved, s.nSlabsReservedAvailable, mem,
      s.caches.set c bc', out⟩ := by
  refine {
    slabs := ?slabs, buffers := ?buffers, available := havail, reserved := h.reserved,
    caches := ?caches }
  case slabs =>
    rw [List.perm_iff_count]
    intro a
    rw [← h.slabs.count_eq a]
    have hcount := count_flatMap_set (x := bc') (g := Cache.slabs) hc (fun _ _ => rfl) a
    have hpool := hslabs a
    simp only [State.allSlabs, count_append]
    omega
  case buffers =>
    rw [List.perm_iff_count]
    intro a
    rw [← h.buffers.count_eq a]
    have hcount := count_flatMap_set (x := bc') hc hothers a
    have hpool := hbuffers a
    simp only [State.inPool, State.inCaches, count_append] at hpool ⊢
    omega
  case caches =>
    intro z hz
    rcases List.mem_or_eq_of_mem_set hz with hold | rfl
    · exact h.caches z hold
    · exact hsound

theorem slabs_of_idle (h : bc.phase = .idle) : bc.slabs = [bc.slabCons, bc.slabProd] := by
  simp only [Cache.slabs, Cache.consSlab, Cache.prodSlab, h]

theorem contents_of_idle (h : bc.phase = .idle) (perSlab : Nat) (mem : Nat → Nat) :
    bc.contents perSlab mem = cells mem bc.slabCons bc.nBuffersCons ++
      cells mem bc.slabProd bc.nBuffersProd := by
  simp only [Cache.contents, Cache.consSlab, Cache.prodSlab, Cache.consCount, Cache.prodCount,
    Cache.returning, h, append_nil]

theorem sound_of_idle {perSlab : Nat} (h : bc.phase = .idle) (hcons : bc.nBuffersCons ≤ perSlab)
    (hprod : bc.nBuffersProd ≤ perSlab) (hgranted : bc.granted ≤ bc.nBuffersCons) :
    bc.Sound perSlab where
  cons := by rwa [Cache.consCount, h]
  prod := hprod
  granted := hgranted
  consuming _ _ hphase := by rw [h] at hphase; cases hphase

theorem Cache.Sound.nBuffersCons_le {perSlab : Nat} (h : bc.Sound perSlab)
    (hidle : bc.phase = .idle) : bc.nBuffersCons ≤ perSlab := by
  have hle := h.cons
  rwa [Cache.consCount, hidle] at hle

/-- The check for buffers to take, up to the trade of an empty slab for a full one. -/
theorem inv_bcacheConsCheck (h : Inv p s) (hc : s.caches[c]? = some bc)
    (hidle : bc.phase = .idle) {n : Nat} (hn : n ≤ p.perSlab) :
    Inv p (bcacheConsCheck s c bc n) := by
  have hsound := h.caches bc (mem_of_getElem? hc)
  have hcons := hsound.nBuffersCons_le hidle
  -- a check that stays with the cache's own slab changes only what is granted
  have hgrant :
      ∀ g ≤ bc.nBuffersCons, Inv p { s with caches := s.caches.set c { bc with granted := g } } :=
    fun g hg => h.replace hc (fun _ => rfl) (fun _ _ => rfl) (fun _ => rfl) h.available
      (sound_of_idle hidle hcons hsound.prod hg)
  rw [bcacheConsCheck]
  by_cases hlocal : bc.nBuffersCons ≠ 0
  · rw [if_pos hlocal]
    exact hgrant _ (by split <;> omega)
  rw [if_neg hlocal]
  have hzero : bc.nBuffersCons = 0 := not_not.mp hlocal
  by_cases havail : s.nSlabsAvailable = 0
  · rw [if_pos havail]
    exact hgrant 0 (Nat.zero_le _)
  rw [if_neg havail]
  obtain ⟨n', hn'⟩ := Nat.exists_eq_succ_of_ne_zero havail
  have hle := h.available
  simp only [hn', Nat.succ_eq_add_one, Nat.add_sub_cancel]
  refine h.replace hc (fun a => ?_) (fun _ _ => rfl) (fun a => ?_) (by omega) ?_
  · have hcount := count_map_update (g := s.slabs) (show n' < p.nSlabs by omega) bc.slabCons a
    rw [slabs_of_idle hidle]
    simp only [Cache.slabs, Cache.consSlab, Cache.prodSlab, count_cons,
      count_nil] at hcount ⊢
    omega
  · rw [contents_of_idle hidle, State.inPool, hn',
      flatMap_cells_pred s.mem s.slabs p.perSlab n' bc.slabCons, hzero]
    simp only [Cache.contents, Cache.consSlab, Cache.prodSlab, Cache.consCount, Cache.prodCount,
      Cache.returning, count_append, count_cells_zero, count_nil]
    omega
  · exact ⟨Nat.le_refl _, hsound.prod, Nat.zero_le _, fun _ _ hphase => by cases hphase; exact hn⟩

/-- A buffer is taken out of the cache. -/
theorem inv_bcacheCons (h : Inv p s) (hc : s.caches[c]? = some bc) (hidle : bc.phase = .idle)
    (hgranted : 0 < bc.granted) : Inv p (bcacheCons s c bc) := by
  have hsound := h.caches bc (mem_of_getElem? hc)
  have hcons := hsound.nBuffersCons_le hidle
  have hle := hsound.granted
  obtain ⟨n, hn⟩ := Nat.exists_eq_succ_of_ne_zero (show bc.nBuffersCons ≠ 0 by omega)
  simp only [bcacheCons, hn, Nat.succ_eq_add_one, Nat.add_sub_cancel]
  refine h.replace hc (fun _ => rfl) (fun _ _ => rfl) (fun a => ?_) h.available ?_
  · rw [contents_of_idle hidle, contents_of_idle (by exact hidle), hn, cells_succ]
    simp only [State.inPool, count_append, count_cons, count_nil]
    omega
  · exact sound_of_idle hidle (by simp only; omega) hsound.prod (by simp only; omega)

/-! Stores go to the slab that a cache produces to. -/

/-- A store to one slab is outside of the others. -/
theorem outside_of_ne {q r k : Nat} (hq : q ∈ slabAddrs p) (hr : r ∈ slabAddrs p) (hne : r ≠ q)
    (hk : k < p.perSlab) {n : Nat} (hn : n ≤ p.perSlab) : q + k < r ∨ r + n ≤ q + k := by
  have hapart := apart_of_mem_slabAddrs hr hq hne
  omega

theorem Cache.Sound.prodCount_le {perSlab : Nat} (h : bc.Sound perSlab) :
    bc.prodCount ≤ perSlab := by
  have hprod := h.prod
  rw [Cache.prodCount]
  split <;> omega

/-- A store to a slab of one cache leaves the contents of the others. -/
theorem Inv.others_update (hpos : 0 < p.perSlab) (h : Inv p s)
    (hc : s.caches[c]? = some bc) {q : Nat} (hq : q ∈ bc.slabs) {k : Nat}
    (hk : k < p.perSlab) (v : Nat) :
    ∀ z ∈ s.caches.eraseIdx c,
      z.contents p.perSlab (Function.update s.mem (q + k) v) = z.contents p.perSlab s.mem := by
  intro z hz
  have hzmem := List.mem_of_mem_eraseIdx hz
  have hsound := h.caches z hzmem
  have hdisjoint := (List.nodup_append.mp (List.nodup_append.mp (h.nodup hpos hc)).2.1).2.2
  have hqaddr := h.mem_slabAddrs (mem_of_getElem? hc) hq
  have houtside : ∀ r ∈ z.slabs, ∀ n ≤ p.perSlab, q + k < r ∨ r + n ≤ q + k := fun r hr n hn =>
    outside_of_ne hqaddr (h.mem_slabAddrs hzmem hr)
      (hdisjoint q hq r (List.mem_flatMap.mpr ⟨z, hz, hr⟩)).symm hk hn
  rw [Cache.contents, Cache.contents,
    cells_update (houtside _ (by simp [Cache.slabs]) _ hsound.cons),
    cells_update (houtside _ (by simp [Cache.slabs]) _ hsound.prodCount_le)]

/-- A store to a slab of a cache leaves what is in the pool. -/
theorem Inv.pool_update (hpos : 0 < p.perSlab) (h : Inv p s) (hc : s.caches[c]? = some bc) {q : Nat}
    (hq : q ∈ bc.slabs) {k : Nat} (hk : k < p.perSlab) (v : Nat) :
    ((List.range s.nSlabsAvailable).flatMap fun i =>
      cells (Function.update s.mem (q + k) v) (s.slabs i) p.perSlab) = s.inPool p := by
  apply List.flatMap_congr
  intro i hi
  have hlt : i < p.nSlabs := Nat.lt_of_lt_of_le (List.mem_range.mp hi) h.available
  have hne : s.slabs i ≠ q := (List.nodup_append.mp (h.nodup hpos hc)).2.2 _
    (List.mem_map.mpr ⟨i, List.mem_range.mpr hlt, rfl⟩) q (List.mem_append_left _ hq)
  exact cells_update (outside_of_ne (h.mem_slabAddrs (mem_of_getElem? hc) hq)
    (h.slab_mem_slabAddrs hlt) hne hk
    (Nat.le_refl _)) v

theorem Inv.consSlab_ne_prodSlab (hpos : 0 < p.perSlab) (h : Inv p s)
    (hc : s.caches[c]? = some bc) : bc.consSlab ≠ bc.prodSlab := by
  have hslabs := (List.nodup_append.mp (List.nodup_append.mp (h.nodup hpos hc)).2.1).1
  simpa [Cache.slabs] using hslabs

/-- The slab that a cache consumes from is not the one it stores to. -/
theorem Inv.cons_update (hpos : 0 < p.perSlab) (h : Inv p s) (hc : s.caches[c]? = some bc) {k : Nat}
    (hk : k < p.perSlab) (v : Nat) {n : Nat} (hn : n ≤ p.perSlab) :
    cells (Function.update s.mem (bc.prodSlab + k) v) bc.consSlab n =
      cells s.mem bc.consSlab n := by
  have hmem := mem_of_getElem? hc
  exact cells_update (outside_of_ne (h.mem_slabAddrs hmem (by simp [Cache.slabs]))
    (h.mem_slabAddrs hmem (by simp [Cache.slabs])) (h.consSlab_ne_prodSlab hpos hc) hk hn) v

theorem count_erase_add {l : List Nat} {b : Nat} (hb : b ∈ l) (a : Nat) :
    (l.erase b).count a + [b].count a = l.count a := by
  rw [(List.perm_cons_erase hb).count_eq a, count_cons, count_cons, count_nil]
  omega

/-- Where a cache has a full slab and a buffer is out, the pool has a place for it. -/
theorem Inv.available_lt (hpos : 0 < p.perSlab) (h : Inv p s) (hc : s.caches[c]? = some bc)
    (hidle : bc.phase = .idle) (hfull : p.perSlab ≤ bc.nBuffersProd) {b : Nat} (hb : b ∈ s.out) :
    s.nSlabsAvailable < p.nSlabs := by
  have hlen := h.buffers.length_eq
  have hpool : (s.inPool p).length = s.nSlabsAvailable * p.perSlab := by
    simp [State.inPool, List.length_flatMap, length_cells]
  have hcache : p.perSlab ≤ (s.inCaches p).length := by
    obtain ⟨hlt, rfl⟩ := List.getElem?_eq_some_iff.mp hc
    have hperm :=
      (List.getElem_cons_eraseIdx_perm hlt).flatMap_right fun bc => bc.contents p.perSlab s.mem
    rw [State.inCaches, ← hperm.length_eq, List.flatMap_cons, List.length_append,
      contents_of_idle hidle, List.length_append, length_cells, length_cells]
    omega
  have hout : 0 < s.out.length := List.length_pos_of_mem hb
  rw [Params.buffers, List.length_append, List.length_append, List.length_map, List.length_range,
    hpool] at hlen
  by_contra hge
  have hmul := Nat.mul_le_mul_right p.perSlab (Nat.not_lt.mp hge)
  omega

/-- A buffer is put into the cache, up to the trade of a full slab for an empty one. -/
theorem inv_bcacheProd (hpos : 0 < p.perSlab) (h : Inv p s) (hc : s.caches[c]? = some bc)
    (hidle : bc.phase = .idle) {b : Nat} (hb : b ∈ s.out) :
    Inv p (bcacheProd p.perSlab s c bc b) := by
  have hsound := h.caches bc (mem_of_getElem? hc)
  have hcons := hsound.nBuffersCons_le hidle
  have hout := count_erase_add hb
  have hcontents := contents_of_idle hidle p.perSlab s.mem
  rw [bcacheProd]
  by_cases hroom : bc.nBuffersProd < p.perSlab
  · rw [if_pos hroom]
    have hprodSlab : bc.prodSlab = bc.slabProd := by simp only [Cache.prodSlab, hidle]
    have hconsSlab : bc.consSlab = bc.slabCons := by simp only [Cache.consSlab, hidle]
    have hq : bc.slabProd ∈ bc.slabs := by simp [slabs_of_idle hidle]
    have hown := h.cons_update hpos hc hroom b hcons
    rw [hprodSlab, hconsSlab] at hown
    refine h.replace hc (fun _ => rfl) (h.others_update hpos hc hq hroom b)
      (fun a => ?_) h.available ?_
    · rw [h.pool_update hpos hc hq hroom, hcontents, contents_of_idle (by exact hidle)]
      simp only [hown, cells_update_succ, count_append]
      have := hout a
      omega
    · exact sound_of_idle hidle hcons (by simp only; omega) hsound.granted
  · rw [if_neg hroom]
    have hlt := h.available_lt hpos hc hidle (Nat.not_lt.mp hroom) hb
    have hfull : bc.nBuffersProd = p.perSlab := Nat.le_antisymm hsound.prod (Nat.not_lt.mp hroom)
    refine h.replace hc (fun a => ?_) (fun _ _ => rfl) (fun a => ?_) hlt ?_
    · have hcount := count_map_update (g := s.slabs) hlt bc.slabProd a
      rw [slabs_of_idle hidle]
      simp only [Cache.slabs, Cache.consSlab, Cache.prodSlab, count_cons,
        count_nil] at hcount ⊢
      omega
    · rw [flatMap_cells_succ, hcontents, hfull]
      have := hout a
      simp only [Cache.contents, Cache.consSlab, Cache.prodSlab, Cache.consCount, Cache.prodCount,
        Cache.returning, State.inPool, count_append, count_cells_zero]
      omega
    · exact ⟨hcons, hsound.prod, hsound.granted, nofun⟩

/-- The end of a trade. -/
theorem inv_finish (hpos : 0 < p.perSlab) (h : Inv p s) (hc : s.caches[c]? = some bc) :
    Inv p (finish p.perSlab s c bc) := by
  have hsound := h.caches bc (mem_of_getElem? hc)
  rw [finish]
  cases hphase : bc.phase with
  | idle => exact h
  | consuming slabFull n =>
      refine h.replace hc (fun a => ?_) (fun _ _ => rfl) (fun a => ?_) h.available ?_
      · simp only [Cache.slabs, Cache.consSlab, Cache.prodSlab, hphase]
      · rw [contents_of_idle rfl]
        simp only [Cache.contents, Cache.consSlab, Cache.prodSlab, Cache.consCount, Cache.prodCount,
          Cache.returning, State.inPool, hphase, append_nil]
      · exact sound_of_idle rfl (Nat.le_refl _) hsound.prod (hsound.consuming slabFull n hphase)
  | producing slabEmpty b =>
      have hprodSlab : bc.prodSlab = slabEmpty := by simp only [Cache.prodSlab, hphase]
      have hconsSlab : bc.consSlab = bc.slabCons := by simp only [Cache.consSlab, hphase]
      have hcons : bc.nBuffersCons ≤ p.perSlab := by
        have hle := hsound.cons
        rwa [Cache.consCount, hphase] at hle
      have hq : slabEmpty ∈ bc.slabs := by simp [Cache.slabs, hprodSlab]
      have hown := h.cons_update hpos hc hpos b hcons
      rw [hprodSlab, hconsSlab, Nat.add_zero] at hown
      refine h.replace hc (fun a => ?_) (h.others_update hpos hc hq hpos b)
        (fun a => ?_) h.available ?_
      · simp only [Cache.slabs, Cache.consSlab, Cache.prodSlab, hphase]
      · have hpool := h.pool_update hpos hc hq hpos b
        have hstored := cells_update_succ s.mem slabEmpty 0 b
        rw [Nat.add_zero] at hpool hstored
        rw [hpool, contents_of_idle rfl]
        simp only [hown, hstored, Cache.contents, Cache.consSlab, Cache.prodSlab, Cache.consCount,
          Cache.prodCount, Cache.returning, hphase, count_cells_zero, count_append]
        omega
      · exact sound_of_idle rfl hcons hpos hsound.granted

/-- A new cache takes two slabs that are reserved for it. -/
theorem inv_bcacheInit (h : Inv p s) : Inv p (bcacheInit s) := by
  have heven := h.reserved
  by_cases hzero : s.nSlabsReservedAvailable = 0
  · simp only [bcacheInit, if_pos hzero]
    exact h
  obtain ⟨r, hr⟩ : ∃ r, s.nSlabsReservedAvailable = r + 2 :=
    ⟨s.nSlabsReservedAvailable - 2, by omega⟩
  have hlast : s.nSlabsReservedAvailable - 1 = r + 1 := by omega
  have hleft : s.nSlabsReservedAvailable - 2 = r := by omega
  simp only [bcacheInit, if_neg hzero, hlast, hleft]
  refine {
    slabs := ?slabs, buffers := ?buffers, available := h.available, reserved := ?reserved,
    caches := ?caches }
  case slabs =>
    rw [List.perm_iff_count]
    intro a
    rw [← h.slabs.count_eq a]
    simp only [State.allSlabs, hr, range_succ, map_append, List.map_cons, List.map_nil,
      flatMap_append, List.flatMap_singleton, Cache.slabs, Cache.consSlab, Cache.prodSlab,
      count_append, count_cons, count_nil]
    omega
  case buffers =>
    have hempty :
        Cache.contents ⟨s.slabsReserved (r + 1), s.slabsReserved r, 0, 0, 0,
          .idle⟩ p.perSlab s.mem = [] := rfl
    simp only [State.inPool, State.inCaches, flatMap_append, List.flatMap_singleton, hempty,
      append_nil]
    exact h.buffers
  case reserved =>
    simp only
    omega
  case caches =>
    exact List.forall_mem_append.mpr ⟨h.caches, List.forall_mem_singleton.mpr
      (sound_of_idle rfl (Nat.zero_le _) (Nat.zero_le _) (Nat.zero_le _))⟩

end Steps

/-! ## Whole runs -/

/-- Slabs that follow one another. -/
theorem flatMap_cells_range (mem : Nat → Nat) (perSlab n : Nat) :
    ((List.range n).flatMap fun i => cells mem (i * perSlab) perSlab) =
      (List.range (n * perSlab)).map mem := by
  induction n with
  | zero => rw [Nat.zero_mul]; rfl
  | succ n ih =>
      rw [range_succ, flatMap_append, List.flatMap_singleton, ih, Nat.succ_mul,
        List.range_add, map_append, List.map_map]
      rfl

/-- The slabs of a pool that fits into memory have their own addresses. -/
theorem inv_bpoolInit {header : Nat} (hfits : p.totalSize header < 2 ^ 64) {s : State}
    (hs : bpoolInit p = some s) : Inv p s := by
  have hcells : (p.nSlabs + p.nSlabsReserved) * p.perSlab < 2 ^ 61 := by
    rw [Params.totalSize] at hfits
    rw [Nat.add_mul]
    omega
  have haddr :
      ∀ i < p.nSlabs + p.nSlabsReserved, i * p.perSlab % 2 ^ 61 = p.perSlab * i := fun i hi => by
    rw [Nat.mod_eq_of_lt (Nat.lt_of_le_of_lt (Nat.mul_le_mul_right _ (Nat.le_of_lt hi)) hcells),
      Nat.mul_comm]
  rw [bpoolInit] at hs
  split at hs
  · cases hs
  cases hs
  refine {
    slabs := ?slabs, buffers := ?buffers, available := Nat.le_refl _, reserved := ?reserved,
    caches := nofun }
  case slabs =>
    apply List.Perm.of_eq
    simp only [State.allSlabs, slabAddrs, List.flatMap_nil, append_nil, List.range_add,
      map_append, List.map_map]
    congr 1
    · exact List.map_congr_left fun i hi => haddr i (Nat.lt_add_right _ (List.mem_range.mp hi))
    · refine List.map_congr_left fun i hi => ?_
      have haddr := haddr (p.nSlabs + i) (Nat.add_lt_add_left (List.mem_range.mp hi) _)
      rwa [Nat.add_mul] at haddr
  case buffers =>
    apply List.Perm.of_eq
    simp only [State.inPool, State.inCaches, List.flatMap_nil, append_nil]
    have hslab : ∀ i ∈ List.range p.nSlabs, i * p.perSlab % 2 ^ 61 = i * p.perSlab := fun i hi => by
      rw [haddr i (Nat.lt_add_right _ (List.mem_range.mp hi)), Nat.mul_comm]
    rw [List.flatMap_congr fun i hi => by rw [hslab i hi], flatMap_cells_range, Params.buffers]
    exact List.map_congr_left fun i hi => if_pos (List.mem_range.mp hi)
  case reserved =>
    simp only [Params.nSlabsReserved, UInt32.toNat_mul, UInt32.reduceToNat]
    omega

/-- One step of a thread. -/
theorem inv_step (hpos : 0 < p.perSlab) {s s' : State} {a : Act} (h : Inv p s)
    (hstep : (users p).step s a = some s') : Inv p s' := by
  cases a with
  | init =>
      cases hstep
      exact inv_bcacheInit h
  | check c n =>
      obtain ⟨bc, hc, hbc⟩ := Option.bind_eq_some_iff.mp hstep
      obtain ⟨⟨hidle, hn⟩, hs'⟩ := Option.ite_none_right_eq_some.mp hbc
      cases hs'
      exact inv_bcacheConsCheck h hc hidle hn
  | cons c =>
      obtain ⟨bc, hc, hbc⟩ := Option.bind_eq_some_iff.mp hstep
      obtain ⟨⟨hidle, hgranted⟩, hs'⟩ := Option.ite_none_right_eq_some.mp hbc
      cases hs'
      exact inv_bcacheCons h hc hidle hgranted
  | prod c b =>
      obtain ⟨bc, hc, hbc⟩ := Option.bind_eq_some_iff.mp hstep
      obtain ⟨⟨hidle, hb⟩, hs'⟩ := Option.ite_none_right_eq_some.mp hbc
      cases hs'
      exact inv_bcacheProd hpos h hc hidle hb
  | finish c =>
      obtain ⟨bc, hc, hbc⟩ := Option.bind_eq_some_iff.mp hstep
      obtain ⟨-, hs'⟩ := Option.ite_none_left_eq_some.mp hbc
      cases hs'
      exact inv_finish hpos h hc

theorem reachable_inv (hpos : 0 < p.perSlab) {header : Nat}
    (hfits : p.totalSize header < 2 ^ 64) {s : State} (h : (users p).Reachable s) : Inv p s :=
  h.invariant (fun _ hs => inv_bpoolInit hfits hs) fun _ _ _ hs hstep => inv_step hpos hs hstep

/-- The buffers of a pool that was made are different. -/
theorem nodup_buffers {s : State} (hs : bpoolInit p = some s) : p.buffers.Nodup := by
  have hne : p.nSlabs * p.perSlab * p.bufferSize.toNat ≠ 0 := by
    intro hzero
    rw [bpoolInit, if_pos hzero] at hs
    cases hs
  have hpos : 0 < p.bufferSize.toNat := Nat.pos_of_ne_zero (Nat.ne_zero_of_mul_ne_zero_right hne)
  exact List.nodup_range.map fun _ _ heq => Nat.eq_of_mul_eq_mul_right hpos heq

/-- The slab behind the full ones of the pool is not in use. -/
theorem Inv.not_inUse (hpos : 0 < p.perSlab) {s : State} (h : Inv p s)
    (hlt : s.nSlabsAvailable < p.nSlabs) : s.slabs s.nSlabsAvailable ∉ s.inUse := by
  have hnodup := h.slabs.nodup_iff.mpr (nodup_slabAddrs hpos)
  rw [State.allSlabs, List.append_assoc, nodup_append] at hnodup
  obtain ⟨hpool, -, hdisjoint⟩ := hnodup
  have hinj := List.inj_on_of_nodup_map hpool
  have hslot := List.mem_range.mpr hlt
  rw [State.inUse, List.mem_append]
  rintro (hfull | hcache)
  · obtain ⟨i, hi, heq⟩ := List.mem_map.mp hfull
    have hi := List.mem_range.mp hi
    have hsame := hinj (List.mem_range.mpr (Nat.lt_trans hi hlt)) hslot heq
    omega
  · exact hdisjoint _ (List.mem_map.mpr ⟨_, hslot, rfl⟩) _ (List.mem_append_right _ hcache) rfl

/-- **Conservation.**  For a pool whose memory fits into the address space, in every
interleaving of its users: each buffer is in exactly one place, in a full slab of
the pool, in a cache or out with a user; no slab is shared and none overlaps
another; there are at most `n_slabs` full slabs in the pool; and a cache that has
to trade its full slab finds a place in the pool with a slab that is not in use. -/
theorem buffers_conserved_of_fits (header : Nat) (hpos : p.nBuffersPerSlab ≠ 0)
    (hfits : p.totalSize header < 2 ^ 64) {s : State} (h : (users p).Reachable s) :
    (s.inPool p ++ s.inCaches p ++ s.out).Perm p.buffers ∧
      (s.inPool p ++ s.inCaches p ++ s.out).Nodup ∧ (s.allSlabs p).Nodup ∧
      (∀ q ∈ s.allSlabs p, ∀ r ∈ s.allSlabs p, q ≠ r → q + p.perSlab ≤ r ∨ r + p.perSlab ≤ q) ∧
      s.nSlabsAvailable ≤ p.nSlabs ∧
      ∀ (c : Nat) (bc : Cache) (buffer : Nat), s.caches[c]? = some bc → bc.phase = .idle →
        buffer ∈ s.out →
        ¬ bc.nBuffersProd < p.perSlab → s.nSlabsAvailable < p.nSlabs ∧
          s.slabs s.nSlabsAvailable ∉ s.inUse := by
  have hpos : 0 < p.perSlab := Nat.pos_of_ne_zero fun hzero => hpos (UInt32.toNat_inj.mp hzero)
  have hinv := reachable_inv hpos hfits h
  have hbuffers : p.buffers.Nodup :=
    h.invariant (P := fun _ => p.buffers.Nodup) (fun _ hs => nodup_buffers hs)
      fun _ _ _ hnodup _ => hnodup
  refine ⟨hinv.buffers, hinv.buffers.nodup_iff.mpr hbuffers,
    hinv.slabs.nodup_iff.mpr (nodup_slabAddrs hpos), ?_,
    hinv.available, fun c bc buffer hc hidle hout hfull => ?_⟩
  · intro q hq r hr hne
    exact apart_of_mem_slabAddrs (hinv.slabs.mem_iff.mp hq) (hinv.slabs.mem_iff.mp hr) hne
  · have hlt := hinv.available_lt hpos hc hidle (Nat.not_lt.mp hfull) hout
    exact ⟨hlt, hinv.not_inUse hpos hlt⟩

/-- A pool of two slabs with two users; the first one trades its empty slab, consumes
a buffer and gives it to the other one, which returns it. -/
theorem buffers_conserved_two :
    ∃ s, (users ⟨4, 16, 2, 2⟩).Reachable s ∧ s.out = [] ∧
      (s.inPool ⟨4, 16, 2, 2⟩ ++ s.inCaches ⟨4, 16, 2, 2⟩ ++ s.out).Perm [0, 16, 32, 48] := by
  have hrun : ((bpoolInit ⟨4, 16, 2, 2⟩).bind fun s => (users ⟨4, 16, 2, 2⟩).run s
      [.init, .init, .check 0 2, .finish 0, .cons 0, .prod 1 48]).map (·.out) = some [] := by
        decide +kernel
  obtain ⟨s, hs, hout⟩ := Option.map_eq_some_iff.mp hrun
  obtain ⟨s₀, hs₀, hrun⟩ := Option.bind_eq_some_iff.mp hs
  have hreach := System.reachable_of_run (.init hs₀) hrun
  exact ⟨s, hreach, hout, (buffers_conserved_of_fits 272 (by decide) (by decide) hreach).1⟩

/-- With `2 ^ 30` users and `2 ^ 30` buffers in a slab the reserved slabs take `2 ^ 64`
bytes, which is 0: the first cache gets the first slab of the pool as its own. -/
theorem buffers_shared :
    ∃ s bc, (users ⟨1, 1, 1073741824, 1073741824⟩).Reachable s ∧ s.caches = [bc] ∧
      0 < s.nSlabsAvailable ∧
      bc.slabCons = s.slabs 0 ∧ ¬ (s.allSlabs ⟨1, 1, 1073741824, 1073741824⟩).Nodup := by
  have hrun : ((bpoolInit ⟨1, 1, 1073741824, 1073741824⟩).map bcacheInit).map
      (fun s => (s.caches, s.nSlabsAvailable, s.slabs 0)) =
        some ([⟨0, 2 ^ 61 - 2 ^ 30, 0, 0, 0, .idle⟩], 1, 0) := by
    decide +kernel
  obtain ⟨s, hs, hview⟩ := Option.map_eq_some_iff.mp hrun
  obtain ⟨s₀, hs₀, rfl⟩ := Option.map_eq_some_iff.mp hs
  simp only [Prod.mk.injEq] at hview
  obtain ⟨hcaches, havail, hslab⟩ := hview
  refine ⟨_, _, .step (a := .init) (.init hs₀) rfl, hcaches, by omega, hslab.symm, fun hnodup => ?_⟩
  rw [State.allSlabs, hcaches, List.append_assoc, nodup_append] at hnodup
  refine hnodup.2.2 0 (List.mem_map.mpr ⟨0, List.mem_range.mpr (by decide), hslab⟩) 0 ?_ rfl
  exact List.mem_append_right _ (by simp [Cache.slabs, Cache.consSlab])

end Linuxyz.Xsk
