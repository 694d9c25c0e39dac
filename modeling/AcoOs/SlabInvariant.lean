/-
Slabs and caches between two calls.

`SlabOk` relates a `slab_t` to the list of its free objects, in the order in which they
will be handed out: `initSlabXip_spec`, `slabAlloc_spec` and `slabFree_spec` say that the
three functions create it, take its first index and put an index behind its last.
`SlabsInv` puts the slabs of a cache together; `grow_spec`, `take_spec`, `kmemObjAlloc_spec`
and `kmemObjFree_spec` say that the functions on caches keep it.  The size of a slab is passed as
an `int`, so there are only slabs shorter than `2 ^ 31` bytes.  `CacheInv` says besides that the
counter of free objects, an `int` too, has not overflowed.
-/
import AcoOs.SlabAllocator
import AcoOs.IndexQueue

namespace AcoOs

open IndexQueue

/-! ### One slab -/

/-- The number of objects of `objSize` bytes in a slab of `size` bytes. -/
def slabObjs (size objSize : ℕ) : ℕ := (size - sizeofSlab) / (4 + objSize)

/-- The address of an object. -/
def Slab.obj (s : Slab) (i : ℕ) : ℕ := s.memObjStart + s.objSize.toNat * i

/-- The slab at the address `start` has the free objects `l`. -/
structure SlabOk (start size objSize : ℕ) (s : Slab) (l : List ℕ) : Prop where
  objAll : s.objAll = slabObjs size objSize
  objFree : s.objFree = l.length
  objSize_eq : s.objSize = objSize
  queue : Queue (slabObjs size objSize) s.memIndexStart s.memFreeHead s.memFreeTail l
  after : start + sizeofSlab + 4 * slabObjs size objSize ≤ s.memObjStart
  within : s.memObjStart + slabObjs size objSize * objSize ≤ start + size

theorem int32_of_lt {x : ℤ} (h0 : 0 ≤ x) (h : x < 2 ^ 31) : int32 x = x := by
  unfold int32
  exact Int.bmod_eq_of_le (by omega) (by omega)

theorem int32_add (x y : ℤ) : int32 (int32 x + y) = int32 (x + y) := Int.bmod_add_bmod

theorem sdbmHash_lt (str : ℕ → BitVec 8) (size : ℕ) : (sdbmHash str size).toNat < 2 ^ 31 := by
  unfold sdbmHash
  rw [BitVec.toNat_and]
  exact Nat.lt_of_le_of_lt Nat.and_le_right (by decide)

theorem slabObjs_mul_le (size z : ℕ) :
    4 * slabObjs size z + slabObjs size z * z + (size - sizeofSlab) % (4 + z) =
      size - sizeofSlab := by
  have h := Nat.div_add_mod (size - sizeofSlab) (4 + z)
  have hexp : (4 + z) * slabObjs size z = 4 * slabObjs size z + slabObjs size z * z := by ring
  unfold slabObjs at hexp ⊢
  omega

/-- The size without the `slab_t`, as unsigned arithmetic has it. -/
theorem slabBytes_eq {size : ℕ} (hlo : sizeofSlab ≤ size) (hhi : size < 2 ^ 31) :
    (size + (2 ^ 64 - sizeofSlab)) % 2 ^ 64 = size - sizeofSlab := by
  unfold sizeofSlab at *
  omega

/-- The colour offset is at most the padding, which is what the objects leave over. -/
theorem colour_le (offset : ℤ) (stack : ℕ → BitVec 8) (pad : ℕ) :
    ∃ off ≤ pad, (if (pad : ℤ) ≠ 0 then
      (toInt32 (sdbmHash (offsetBytes offset stack) 4).toNat).tmod pad -
        (toInt32 (sdbmHash (offsetBytes offset stack) 4).toNat).tmod pad % 4 else 0) =
      (off : ℤ) := by
  rw [toInt32_of_lt (sdbmHash_lt _ _)]
  generalize (sdbmHash (offsetBytes offset stack) 4).toNat = hash
  by_cases hp : (pad : ℤ) ≠ 0
  · have hlt : hash % pad < pad := Nat.mod_lt _ (by omega)
    rw [if_pos hp, ← Int.ofNat_tmod]
    exact ⟨hash % pad - hash % pad % 4, by omega, by omega⟩
  · exact ⟨0, Nat.zero_le _, if_neg hp⟩

/-- `init_slab_xip` never runs into an `ASSERT` on a slab that is shorter than `2 ^ 31`
bytes, and returns `NULL` exactly when no object fits. -/
theorem initSlabXip_spec {start size z : ℕ} (offset : ℤ) (stack : ℕ → BitVec 8)
    (h0 : start ≠ 0) (hal : start % pageSize = 0) (hz : 0 < z) (hzs : z < size)
    (hlo : sizeofSlab ≤ size) (hhi : size < 2 ^ 31) :
    (slabObjs size z = 0 ∧ initSlabXip start size z offset stack = some none) ∨
    (0 < slabObjs size z ∧ ∃ s, initSlabXip start size z offset stack = some (some s) ∧
      SlabOk start size z s (List.range (slabObjs size z))) := by
  have hassert : start ≠ 0 ∧ (0 : ℤ) < size ∧ (0 : ℤ) < z ∧ (z : ℤ) < size ∧
      start % pageSize = 0 := ⟨h0, by omega, by omega, by omega, hal⟩
  have hle := Nat.sub_le size sizeofSlab
  have hmod := Nat.mod_le (size - sizeofSlab) (4 + z)
  have hdiv := Nat.div_le_self (size - sizeofSlab) (4 + z)
  have hnum : toInt32 ((size - sizeofSlab) / (4 + z)) = slabObjs size z :=
    toInt32_of_lt (by omega)
  have hpad : toInt32 ((size - sizeofSlab) % (4 + z)) = ((size - sizeofSlab) % (4 + z) : ℕ) :=
    toInt32_of_lt (by omega)
  obtain ⟨off, hoffle, hoff⟩ := colour_le offset stack ((size - sizeofSlab) % (4 + z))
  unfold initSlabXip
  simp only [if_pos hassert, Int.toNat_natCast, slabBytes_eq hlo hhi, hnum, hpad, hoff,
    Int.natCast_nonneg, if_true]
  by_cases hn : slabObjs size z = 0
  · left
    refine ⟨hn, ?_⟩
    rw [if_pos (by omega)]
  · right
    refine ⟨Nat.pos_of_ne_zero hn, ?_⟩
    rw [if_neg (by omega)]
    refine ⟨_, rfl, ⟨rfl, ?_, rfl, ?_, ?_, ?_⟩⟩
    · rw [List.length_range]
    · refine Queue.init (Nat.pos_of_ne_zero hn) (fun i hi => ?_) fun i hi => ?_
      · exact if_pos (by omega)
      · exact if_neg (by omega)
    · dsimp only
      omega
    · have hsum := slabObjs_mul_le size z
      dsimp only
      clear hhi hnum hpad hassert hoff
      generalize sizeofSlab = b at *
      omega

namespace SlabOk

variable {start size z i : ℕ} {s : Slab} {l : List ℕ}

theorem obj_eq (h : SlabOk start size z s l) (i : ℕ) : s.obj i = s.memObjStart + z * i := by
  unfold Slab.obj
  rw [h.objSize_eq, Int.toNat_natCast]

/-- An object lies in its slab, behind the `slab_t`. -/
theorem obj_within (h : SlabOk start size z s l) (hi : i < slabObjs size z) :
    start + sizeofSlab ≤ s.obj i ∧ s.obj i + z ≤ start + size := by
  have h1 := h.after
  have h2 := h.within
  have h3 : z * i + z ≤ slabObjs size z * z := by
    have := Nat.mul_le_mul_left z (Nat.succ_le_of_lt hi)
    rw [Nat.mul_comm (slabObjs size z) z]
    exact this
  rw [h.obj_eq]
  omega

/-- Two objects of a slab do not overlap. -/
theorem obj_apart (h : SlabOk start size z s l) {j : ℕ} (hij : i < j) :
    s.obj i + z ≤ s.obj j := by
  have := Nat.mul_le_mul_left z (Nat.succ_le_of_lt hij)
  rw [h.obj_eq, h.obj_eq, Nat.mul_succ] at *
  omega

/-- `slab_alloc` hands out the first free object. -/
theorem slabAlloc_spec (h : SlabOk start size z s (i :: l)) :
    ∃ s', slabAlloc s = some (some (s.obj i), s') ∧ SlabOk start size z s' l ∧
      s'.memObjStart = s.memObjStart := by
  have hhead : s.memFreeHead = i := h.queue.head_eq i rfl
  have hfree : s.objFree = l.length + 1 := by
    rw [h.objFree, List.length_cons]
    push_cast
    rfl
  have hq := h.queue
  rw [hhead] at hq
  unfold slabAlloc
  rw [if_neg (by omega), if_neg (by omega)]
  dsimp only
  rw [hhead, Int.toNat_natCast]
  refine ⟨_, rfl, ?_, ?_⟩
  · cases l with
    | nil =>
      rw [if_pos (by rw [hfree]; rfl)]
      refine ⟨h.objAll, ?_, h.objSize_eq, ?_, h.after, h.within⟩
      · dsimp only
        rw [hfree]
        rfl
      · exact hq.pop_last
    | cons j l =>
      have hlen : s.objFree - 1 = ((j :: l).length : ℤ) := by omega
      rw [if_neg (by rw [hlen, List.length_cons]; omega)]
      exact ⟨h.objAll, hlen, h.objSize_eq, hq.pop (by simp), h.after, h.within⟩
  · split_ifs <;> rfl

/-- `slab_free` of an object that is handed out puts it behind the free ones. -/
theorem slabFree_spec (h : SlabOk start size z s l) (h0 : 0 < start) (hz : 0 < z)
    (hi : i < slabObjs size z) (hil : i ∉ l) :
    ∃ s', slabFree s (s.obj i) = some s' ∧ SlabOk start size z s' (l ++ [i]) ∧
      s'.memObjStart = s.memObjStart := by
  have hobj := h.obj_eq i
  have hlo := (h.obj_within hi).1
  have hmul : z * i < slabObjs size z * z := by
    rw [Nat.mul_comm]
    exact Nat.mul_lt_mul_of_pos_right hi hz
  have hrange : s.obj i ≠ 0 ∧ s.memObjStart ≤ s.obj i ∧
      s.obj i < s.memObjStart + s.objAll.toNat * s.objSize.toNat := by
    rw [h.objAll, h.objSize_eq, Int.toNat_natCast, Int.toNat_natCast]
    omega
  have hoff : s.obj i - s.memObjStart = z * i := by omega
  have hmark := h.queue.mark i hi hil
  unfold slabFree
  rw [if_pos hrange]
  dsimp only
  rw [hoff, h.objSize_eq, Int.toNat_natCast, if_pos (Nat.mul_mod_right z i),
    Nat.mul_div_cancel_left i hz, if_pos hmark]
  by_cases hl : l = []
  · subst hl
    rw [if_pos (show s.objFree = 0 from h.objFree), if_pos (h.queue.empty rfl)]
    refine ⟨_, rfl, ⟨h.objAll, ?_, rfl, h.queue.push_first hi, h.after, h.within⟩, rfl⟩
    dsimp only
    rw [h.objFree]
    rfl
  · have hlast := List.getLast?_eq_some_getLast hl
    have htail := h.queue.tail_eq _ hlast
    have hhead := h.queue.head_eq _ (List.head?_eq_some_head hl)
    have hlen := List.length_pos_iff.2 hl
    have hfree := h.objFree
    rw [if_neg (show s.objFree ≠ 0 by omega), if_pos ⟨by omega, by omega⟩, htail,
      Int.toNat_natCast]
    refine ⟨_, rfl, ⟨h.objAll, ?_, rfl, h.queue.push hil hi hlast, h.after, h.within⟩, rfl⟩
    dsimp only
    rw [hfree, List.length_append, List.length_singleton]
    push_cast
    rfl

end SlabOk

/-! ### A cache -/

/-- The slabs of a cache. -/
def KmemCache.all (m : KmemCache) : List ℕ := m.free ++ m.partialSlabs ++ m.full

/-- The sizes of objects and slabs that `kmem_cache_init` accepts and an `int` can hold. -/
structure SlabSize (z k : ℕ) : Prop where
  pos : 0 < z
  lt : z < orderBytes k
  order_le : k ≤ 18

variable {c : Layout} {A : PageAllocator c}

/-- The free objects that are in the slabs of a cache. -/
def KmemCache.freeCount (m : KmemCache) (chain : ℕ → List ℕ) : ℕ :=
  (m.all.map fun p => (chain p).length).sum

/-- A cache of objects of `z` bytes in slabs of order `k`: the free objects of the slab of
page `p` are `chain p`, and the objects at the addresses `live` are handed out.  The counter is
an `int`, so it is right up to a multiple of `2 ^ 32`. -/
structure SlabsInv (z k : ℕ) (chain : ℕ → List ℕ) (live : Finset ℕ) (x : Kmem A) : Prop where
  objSize : x.cache.objSize = z
  pgOrder : x.cache.pgOrder = k
  nodup : x.cache.all.Nodup
  pgOrhas : x.cache.pgOrhas = x.cache.all.length
  pgOrhas_le : x.cache.pgOrhas ≤ x.cache.pgOrlimit
  block : ∀ p ∈ x.cache.all, A.blocks x.buddy p = some k
  page : ∀ p ∈ x.cache.all,
    (x.pages p).pgtype = .slabAllocator ∧ (x.pages p).buddyFlags = flagHead
  pos : ∀ p ∈ x.cache.all, 0 < slabObjs (orderBytes k) z
  slab : ∀ p ∈ x.cache.all, SlabOk (c.pg2va p) (orderBytes k) z (x.slabs p) (chain p)
  free_iff : ∀ p ∈ x.cache.all, p ∈ x.cache.free ↔ (chain p).length = slabObjs (orderBytes k) z
  full_iff : ∀ p ∈ x.cache.all, p ∈ x.cache.full ↔ (chain p).length = 0
  objNum : x.cache.objNum = int32 (x.cache.freeCount chain)
  live_iff : ∀ a, a ∈ live ↔ ∃ p ∈ x.cache.all, ∃ i < slabObjs (orderBytes k) z,
    i ∉ chain p ∧ a = (x.slabs p).obj i

/-- What the attempt to set up one more slab leaves behind: nothing but a descriptor of a free
page. -/
structure SlabRefused (k : ℕ) (x y : Kmem A) : Prop where
  cache : y.cache = x.cache
  slabs : y.slabs = x.slabs
  freePages : A.freePages y.buddy = A.freePages x.buddy
  blocks : A.blocks y.buddy = A.blocks x.buddy
  pages : ∀ q, y.pages q = x.pages q ∨ q ∈ A.freePages x.buddy ∧ y.pages q = .handed k

/-- The page `p` has become the first of one more slab. -/
structure SlabAdded (z k : ℕ) (chain chain' : ℕ → List ℕ) (x y : Kmem A) (p : ℕ) : Prop where
  alloc : A.alloc x.buddy k = (some p, y.buddy)
  pos : 0 < slabObjs (orderBytes k) z
  order_le : k ≤ 18
  free : y.cache.free = x.cache.free ++ [p]
  partialSlabs : y.cache.partialSlabs = x.cache.partialSlabs
  full : y.cache.full = x.cache.full
  objNum : y.cache.objNum = int32 (x.cache.objNum + slabObjs (orderBytes k) z)
  pgOrhas : y.cache.pgOrhas = x.cache.pgOrhas + 1
  pgOrlimit : y.cache.pgOrlimit = x.cache.pgOrlimit
  freeCount : y.cache.freeCount chain' = x.cache.freeCount chain + slabObjs (orderBytes k) z
  pages : ∀ q, q ≠ p → y.pages q = x.pages q

theorem SlabRefused.refl (k : ℕ) (x : Kmem A) : SlabRefused k x x :=
  ⟨rfl, rfl, rfl, rfl, fun _ => .inl rfl⟩

/-- Why `kmem_obj_alloc` returns `NULL`. -/
def CannotAlloc (z k : ℕ) (x : Kmem A) : Prop :=
  x.cache.objNum = 0 ∧ (x.cache.pgOrlimit ≤ x.cache.pgOrhas ∨ (A.alloc x.buddy k).1 = none ∨
    slabObjs (orderBytes k) z = 0)

theorem orderBytes_lt {k : ℕ} (hk : k ≤ 18) : orderBytes k < 2 ^ 31 := by
  have := Nat.pow_le_pow_right (n := 2) (by norm_num) hk
  unfold orderBytes
  simp only [pageSize, pageOffset]
  omega

/-- A size that arrives in `init_slab_xip` as a positive `int` is shorter than `2 ^ 31` bytes. -/
theorem order_le_of_pos {k : ℕ} (h : 0 < toInt32 (orderBytes k)) : k ≤ 18 := by
  by_contra hk
  obtain ⟨j, rfl⟩ := Nat.exists_eq_add_of_lt (not_le.1 hk)
  have hbytes : orderBytes (18 + j + 1) = 2 ^ 31 * 2 ^ j := by
    unfold orderBytes
    simp only [pageSize, pageOffset]
    ring
  rw [hbytes] at h
  unfold toInt32 at h
  rcases Nat.eq_zero_or_pos j with rfl | hj
  · revert h
    decide
  · have hdvd : ((2 ^ 32 : ℕ) : ℤ) ∣ ((2 ^ 31 * 2 ^ j : ℕ) : ℤ) := by
      refine Int.natCast_dvd_natCast.2 ⟨2 ^ (j - 1), ?_⟩
      obtain ⟨i, rfl⟩ := Nat.exists_eq_add_of_lt hj
      rw [Nat.zero_add, Nat.add_sub_cancel]
      ring
    rw [Int.bmod_eq_zero_of_dvd hdvd] at h
    exact absurd h (lt_irrefl 0)

theorem sizeofSlab_le (k : ℕ) : sizeofSlab ≤ orderBytes k := by
  have := Nat.one_le_two_pow (n := k)
  unfold orderBytes sizeofSlab
  simp only [pageSize, pageOffset]
  omega

/-- The addresses of a block lie in the managed range. -/
theorem PageAllocator.block_va {s : A.State} {p k : ℕ} (h : A.blocks s p = some k) :
    c.pg2va p = c.vaStart + p * pageSize ∧ 0 < c.pg2va p ∧ c.pg2va p % pageSize = 0 ∧
      c.pg2va p + orderBytes k < 2 ^ 64 := by
  have hle := (A.wellFormed s).block_le p k h
  have hnull := (A.wellFormed s).not_null p k h
  have hva := Layout.pg2va_of_valid (A.block_lt h)
  have hend := c.vaEnd_lt
  have hal := c.vaStart_aligned
  refine ⟨hva, Nat.pos_of_ne_zero hnull, ?_, ?_⟩
  · rw [hva, Nat.add_mul_mod_self_right]
    exact hal
  · rw [hva]
    unfold orderBytes
    have := Nat.mul_le_mul_right pageSize hle
    rw [Nat.add_mul] at this
    omega

/-- Two blocks lie one behind the other. -/
theorem PageAllocator.block_apart {s : A.State} {p q k : ℕ} (hp : A.blocks s p = some k)
    (hq : A.blocks s q = some k) (hne : p ≠ q) :
    c.pg2va p + orderBytes k ≤ c.pg2va q ∨ c.pg2va q + orderBytes k ≤ c.pg2va p := by
  have hd := Set.disjoint_left.1 (A.blocks_disjoint hp hq hne)
  rw [(A.block_va hp).1, (A.block_va hq).1]
  unfold orderBytes
  rw [Nat.add_assoc, ← Nat.add_mul, Nat.add_assoc, ← Nat.add_mul]
  by_cases hlt : p < q
  · left
    have hle : p + 2 ^ k ≤ q := by
      by_contra hcon
      exact hd (a := q) ⟨hlt.le, by omega⟩ (self_mem_pagesOf q k)
    exact Nat.add_le_add_left (Nat.mul_le_mul_right _ hle) _
  · right
    have hle : q + 2 ^ k ≤ p := by
      by_contra hcon
      exact hd (a := p) (self_mem_pagesOf p k) ⟨by omega, by omega⟩
    exact Nat.add_le_add_left (Nat.mul_le_mul_right _ hle) _

namespace SlabsInv

variable {z k : ℕ} {chain : ℕ → List ℕ} {live : Finset ℕ} {x : Kmem A}

/-- Objects of different slabs are different. -/
theorem slab_unique (h : SlabsInv z k chain live x) (hz : 0 < z) {p q i a : ℕ}
    (hp : p ∈ x.cache.all) (hi : i < slabObjs (orderBytes k) z) (ha : a = (x.slabs p).obj i)
    (hq : q ∈ x.cache.all) (hlo : c.pg2va q ≤ a) (hhi : a < c.pg2va q + orderBytes k) :
    p = q := by
  by_contra hne
  have h1 := (h.slab p hp).obj_within hi
  have h2 := A.block_apart (h.block p hp) (h.block q hq) hne
  omega

/-- No two objects are the same. -/
theorem obj_inj (h : SlabsInv z k chain live x) (hz : 0 < z) {p q i j : ℕ}
    (hp : p ∈ x.cache.all) (hi : i < slabObjs (orderBytes k) z)
    (hq : q ∈ x.cache.all) (hj : j < slabObjs (orderBytes k) z)
    (he : (x.slabs p).obj i = (x.slabs q).obj j) : p = q ∧ i = j := by
  have h2 := (h.slab q hq).obj_within hj
  have hpq := h.slab_unique hz hp hi he.symm hq (by omega) (by omega)
  subst hpq
  refine ⟨rfl, ?_⟩
  rw [(h.slab p hp).obj_eq, (h.slab p hp).obj_eq] at he
  exact Nat.eq_of_mul_eq_mul_left hz (Nat.add_left_cancel he)

theorem mem_all {m : KmemCache} {p : ℕ} :
    p ∈ m.all ↔ p ∈ m.free ∨ p ∈ m.partialSlabs ∨ p ∈ m.full := by
  unfold KmemCache.all
  rw [List.mem_append, List.mem_append, or_assoc]

/-- A slab is in one list only. -/
theorem partial_iff (h : SlabsInv z k chain live x) {p : ℕ} (hp : p ∈ x.cache.all) :
    p ∈ x.cache.partialSlabs ↔
      (chain p).length ≠ slabObjs (orderBytes k) z ∧ (chain p).length ≠ 0 := by
  have hnd := h.nodup
  unfold KmemCache.all at hnd
  rw [List.nodup_append, List.nodup_append] at hnd
  rw [ne_eq, ne_eq, ← h.free_iff p hp, ← h.full_iff p hp]
  constructor
  · intro hpart
    exact ⟨fun hf => hnd.1.2.2 p hf p hpart rfl,
      fun hf => hnd.2.2 p (List.mem_append_right _ hpart) p hf rfl⟩
  · rintro ⟨h1, h2⟩
    rcases mem_all.1 hp with h3 | h3 | h3
    · exact absurd h3 h1
    · exact h3
    · exact absurd h3 h2

/-- The sum of the counters, with the counter of one slab replaced. -/
theorem sum_update {l : List ℕ} (hl : l.Nodup) {f : ℕ → List ℕ} {p : ℕ} (hp : p ∈ l)
    (v : List ℕ) : (l.map fun q => (Function.update f p v q).length).sum + (f p).length =
      (l.map fun q => (f q).length).sum + v.length := by
  have hperm := List.perm_cons_erase hp
  have hsame : (l.erase p).map (fun q => (Function.update f p v q).length) =
      (l.erase p).map fun q => (f q).length := by
    refine List.map_congr_left fun q hq => ?_
    rw [Function.update_of_ne]
    rintro rfl
    exact hl.not_mem_erase hq
  rw [(hperm.map _).sum_eq, (hperm.map fun q => (f q).length).sum_eq, List.map_cons,
    List.map_cons, List.sum_cons, List.sum_cons, Function.update_self, hsame]
  omega

theorem freeCount_update {m m' : KmemCache} (hm : m.all.Nodup) (hperm : m'.all.Perm m.all) {p : ℕ}
    (hp : p ∈ m.all) (chain : ℕ → List ℕ) (l : List ℕ) :
    m'.freeCount (Function.update chain p l) + (chain p).length = m.freeCount chain + l.length := by
  unfold KmemCache.freeCount
  rw [(hperm.map fun q => (Function.update chain p l q).length).sum_eq]
  exact sum_update hm hp l

theorem freeCount_pop {m m' : KmemCache} (hm : m.all.Nodup) (hperm : m'.all.Perm m.all) {p i : ℕ}
    {l : List ℕ} (hp : p ∈ m.all) (hc : chain p = i :: l) :
    m'.freeCount (Function.update chain p l) + 1 = m.freeCount chain := by
  have hsum := freeCount_update hm hperm hp chain l
  rw [hc, List.length_cons] at hsum
  omega

theorem freeCount_push {m m' : KmemCache} (hm : m.all.Nodup) (hperm : m'.all.Perm m.all) {p : ℕ}
    (hp : p ∈ m.all) (i : ℕ) : m'.freeCount (Function.update chain p (chain p ++ [i])) =
      m.freeCount chain + 1 := by
  have hsum := freeCount_update hm hperm hp chain (chain p ++ [i])
  rw [List.length_append, List.length_singleton] at hsum
  omega

/-- The slab of page `p`, `n` of whose `size` objects are free, was put into the list that is right
for it, and the other slabs stayed where they were. -/
structure Moved (m m' : KmemCache) (size p n : ℕ) : Prop where
  objSize : m'.objSize = m.objSize
  pgOrder : m'.pgOrder = m.pgOrder
  pgOrlimit : m'.pgOrlimit = m.pgOrlimit
  pgOrhas : m'.pgOrhas = m.pgOrhas
  perm : m'.all.Perm m.all
  free : ∀ q, q ≠ p → (q ∈ m'.free ↔ q ∈ m.free)
  full : ∀ q, q ≠ p → (q ∈ m'.full ↔ q ∈ m.full)
  self_free : p ∈ m'.free ↔ n = size
  self_full : p ∈ m'.full ↔ n = 0

/-- Replace one slab, and move it between the lists. -/
theorem move (h : SlabsInv z k chain live x) {p : ℕ} (hp : p ∈ x.cache.all) {s : Slab}
    {l : List ℕ} {live' : Finset ℕ} {d : ℤ} {m : KmemCache}
    (hs : SlabOk (c.pg2va p) (orderBytes k) z s l)
    (hobj : s.memObjStart = (x.slabs p).memObjStart)
    (hm : Moved x.cache m (slabObjs (orderBytes k) z) p l.length)
    (hnum : m.objNum = int32 (x.cache.objNum + d)) (hd : d + (chain p).length = l.length)
    (hlive : ∀ a, a ∈ live' ↔ ∃ q ∈ x.cache.all, ∃ i < slabObjs (orderBytes k) z,
      i ∉ Function.update chain p l q ∧ a = (x.slabs q).obj i) :
    SlabsInv z k (Function.update chain p l) live'
      { x with slabs := Function.update x.slabs p s, cache := m } := by
  have hmem : ∀ q, q ∈ m.all ↔ q ∈ x.cache.all := fun q => hm.perm.mem_iff
  have hslab : ∀ q ∈ x.cache.all, SlabOk (c.pg2va q) (orderBytes k) z
      (Function.update x.slabs p s q) (Function.update chain p l q) := by
    intro q hq
    by_cases hqp : q = p
    · subst hqp
      rw [Function.update_self, Function.update_self]
      exact hs
    · rw [Function.update_of_ne hqp, Function.update_of_ne hqp]
      exact h.slab q hq
  have hobj' : ∀ q ∈ x.cache.all, ∀ i,
      (Function.update x.slabs p s q).obj i = (x.slabs q).obj i := by
    intro q hq i
    by_cases hqp : q = p
    · subst hqp
      rw [Function.update_self, hs.obj_eq, (h.slab q hq).obj_eq, hobj]
    · rw [Function.update_of_ne hqp]
  exact {
    objSize := hm.objSize.trans h.objSize
    pgOrder := hm.pgOrder.trans h.pgOrder
    nodup := hm.perm.nodup_iff.2 h.nodup
    pgOrhas := by rw [hm.pgOrhas, h.pgOrhas, hm.perm.length_eq]
    pgOrhas_le := by rw [hm.pgOrhas, hm.pgOrlimit]; exact h.pgOrhas_le
    block := fun q hq => h.block q ((hmem q).1 hq)
    page := fun q hq => h.page q ((hmem q).1 hq)
    pos := fun q hq => h.pos q ((hmem q).1 hq)
    slab := fun q hq => hslab q ((hmem q).1 hq)
    free_iff := fun q hq => by
      by_cases hqp : q = p
      · subst hqp
        rw [Function.update_self]
        exact hm.self_free
      · rw [Function.update_of_ne hqp]
        exact (hm.free q hqp).trans (h.free_iff q ((hmem q).1 hq))
    full_iff := fun q hq => by
      by_cases hqp : q = p
      · subst hqp
        rw [Function.update_self]
        exact hm.self_full
      · rw [Function.update_of_ne hqp]
        exact (hm.full q hqp).trans (h.full_iff q ((hmem q).1 hq))
    objNum := by
      have hsum := freeCount_update h.nodup hm.perm hp chain l
      show m.objNum = int32 (m.freeCount (Function.update chain p l))
      rw [hnum, h.objNum, int32_add]
      congr 1
      omega
    live_iff := fun a => by
      rw [hlive]
      constructor
      · rintro ⟨q, hq, i, hi, hn, rfl⟩
        exact ⟨q, (hmem q).2 hq, i, hi, hn, (hobj' q hq i).symm⟩
      · rintro ⟨q, hq, i, hi, hn, rfl⟩
        exact ⟨q, (hmem q).1 hq, i, hi, hn, hobj' q ((hmem q).1 hq) i⟩ }

/-- The objects handed out, after one more was taken from the slab of page `p`. -/
theorem live_insert (h : SlabsInv z k chain live x) (hz : 0 < z) {p i : ℕ} {l : List ℕ}
    (hp : p ∈ x.cache.all) (hc : chain p = i :: l) :
    (x.slabs p).obj i ∉ live ∧ ∀ a, a ∈ insert ((x.slabs p).obj i) live ↔
      ∃ q ∈ x.cache.all, ∃ j < slabObjs (orderBytes k) z,
        j ∉ Function.update chain p l q ∧ a = (x.slabs q).obj j := by
  have hq := (h.slab p hp).queue
  rw [hc] at hq
  have hi := hq.lt i List.mem_cons_self
  have hil := (List.nodup_cons.1 hq.nodup).1
  refine ⟨fun hl => ?_, fun a => ?_⟩
  · obtain ⟨q, hqall, j, hj, hn, he⟩ := (h.live_iff _).1 hl
    obtain ⟨rfl, rfl⟩ := h.obj_inj hz hp hi hqall hj he
    rw [hc] at hn
    exact hn List.mem_cons_self
  · rw [Finset.mem_insert, h.live_iff]
    constructor
    · rintro (rfl | ⟨q, hqall, j, hj, hn, rfl⟩)
      · exact ⟨p, hp, i, hi, by rwa [Function.update_self], rfl⟩
      · refine ⟨q, hqall, j, hj, ?_, rfl⟩
        by_cases hqp : q = p
        · subst hqp
          rw [hc] at hn
          rw [Function.update_self]
          exact fun hjl => hn (List.mem_cons_of_mem i hjl)
        · rwa [Function.update_of_ne hqp]
    · rintro ⟨q, hqall, j, hj, hn, rfl⟩
      by_cases hqp : q = p
      · subst hqp
        rw [Function.update_self] at hn
        by_cases hji : j = i
        · exact .inl (by rw [hji])
        · refine .inr ⟨q, hqall, j, hj, ?_, rfl⟩
          rw [hc, List.mem_cons, not_or]
          exact ⟨hji, hn⟩
      · rw [Function.update_of_ne hqp] at hn
        exact .inr ⟨q, hqall, j, hj, hn, rfl⟩

/-- The objects handed out, after one was given back to the slab of page `p`. -/
theorem live_erase (h : SlabsInv z k chain live x) (hz : 0 < z) {p i : ℕ}
    (hp : p ∈ x.cache.all) (hi : i < slabObjs (orderBytes k) z) :
    ∀ a, a ∈ live.erase ((x.slabs p).obj i) ↔
      ∃ q ∈ x.cache.all, ∃ j < slabObjs (orderBytes k) z,
        j ∉ Function.update chain p (chain p ++ [i]) q ∧ a = (x.slabs q).obj j := by
  intro a
  rw [Finset.mem_erase, h.live_iff]
  constructor
  · rintro ⟨hne, q, hqall, j, hj, hn, rfl⟩
    refine ⟨q, hqall, j, hj, ?_, rfl⟩
    by_cases hqp : q = p
    · subst hqp
      rw [Function.update_self, List.mem_append, List.mem_singleton, not_or]
      exact ⟨hn, fun hji => hne (by rw [hji])⟩
    · rwa [Function.update_of_ne hqp]
  · rintro ⟨q, hqall, j, hj, hn, rfl⟩
    by_cases hqp : q = p
    · subst hqp
      rw [Function.update_self, List.mem_append, List.mem_singleton, not_or] at hn
      exact ⟨fun he => hn.2 (h.obj_inj hz hqall hj hp hi he).2, q, hqall, j, hj, hn.1, rfl⟩
    · rw [Function.update_of_ne hqp] at hn
      exact ⟨fun he => hqp (h.obj_inj hz hqall hj hp hi he).1, q, hqall, j, hj, hn, rfl⟩

/-- The first free object of the slab of page `p` is taken, wherever the slab is put then. -/
theorem pop (h : SlabsInv z k chain live x) (hz : 0 < z) {p i : ℕ} {l : List ℕ}
    (hp : p ∈ x.cache.all) (hc : chain p = i :: l) :
    ∃ s, slabAlloc (x.slabs p) = some (some ((x.slabs p).obj i), s) ∧ s.objFree = l.length ∧
      (x.slabs p).obj i ∉ live ∧
      ∀ m, Moved x.cache m (slabObjs (orderBytes k) z) p l.length →
        m.objNum = int32 (x.cache.objNum + -1) →
        SlabsInv z k (Function.update chain p l) (insert ((x.slabs p).obj i) live)
          { x with slabs := Function.update x.slabs p s, cache := m } ∧
        m.freeCount (Function.update chain p l) + 1 = x.cache.freeCount chain := by
  have hlen : (chain p).length = l.length + 1 := by rw [hc, List.length_cons]
  have hok := h.slab p hp
  rw [hc] at hok
  obtain ⟨s, hs, hs', hobj⟩ := hok.slabAlloc_spec
  obtain ⟨hfresh, hlive⟩ := h.live_insert hz hp hc
  exact ⟨s, hs, hs'.objFree, hfresh, fun m hm hnum =>
    ⟨h.move hp hs' hobj hm hnum (by omega) hlive, freeCount_pop h.nodup hm.perm hp hc⟩⟩

/-- An object is put back into the slab of page `p`, wherever the slab is put then. -/
theorem push (h : SlabsInv z k chain live x) (hz : 0 < z) {p i : ℕ} (hp : p ∈ x.cache.all)
    (hi : i < slabObjs (orderBytes k) z) (hn : i ∉ chain p) :
    ∃ s, slabFree (x.slabs p) ((x.slabs p).obj i) = some s ∧
      (s.objFree = s.objAll ↔ (chain p).length + 1 = slabObjs (orderBytes k) z) ∧
      ∀ m, Moved x.cache m (slabObjs (orderBytes k) z) p ((chain p).length + 1) →
        m.objNum = int32 (x.cache.objNum + 1) →
        SlabsInv z k (Function.update chain p (chain p ++ [i])) (live.erase ((x.slabs p).obj i))
          { x with slabs := Function.update x.slabs p s, cache := m } ∧
        m.freeCount (Function.update chain p (chain p ++ [i])) = x.cache.freeCount chain + 1 := by
  have hlen : (chain p ++ [i]).length = (chain p).length + 1 := by
    rw [List.length_append, List.length_singleton]
  have h0 := (A.block_va (h.block p hp)).2.1
  obtain ⟨s, hs, hs', hobj⟩ := (h.slab p hp).slabFree_spec h0 hz hi hn
  rw [← hlen]
  refine ⟨s, hs, ?_, fun m hm hnum => ⟨h.move hp hs' hobj hm hnum (by omega)
    (h.live_erase hz hp hi), freeCount_push h.nodup hm.perm hp i⟩⟩
  rw [hs'.objFree, hs'.objAll]
  exact Nat.cast_inj

/-- Moving an element from one list to the end of another keeps the elements. -/
theorem perm_move {a b : List ℕ} {p : ℕ} (hp : p ∈ a) :
    (a.erase p ++ (b ++ [p])).Perm (a ++ b) := by
  refine List.Perm.trans ?_ ((List.perm_cons_erase hp).symm.append_right b)
  rw [← List.append_assoc, List.cons_append]
  exact List.perm_append_singleton p (a.erase p ++ b)

theorem perm_move_left {a b d : List ℕ} {p : ℕ} (hp : p ∈ a) :
    (b ++ [p] ++ d ++ a.erase p).Perm (b ++ d ++ a) := by
  rw [List.append_assoc, List.append_assoc, List.append_assoc]
  refine List.Perm.append_left b ?_
  have hmid : (p :: (d ++ a.erase p)).Perm (d ++ p :: a.erase p) := List.perm_middle.symm
  exact hmid.trans ((List.perm_cons_erase hp).symm.append_left d)

theorem mem_erase_iff {a : List ℕ} {p q : ℕ} (hqp : q ≠ p) : q ∈ a.erase p ↔ q ∈ a :=
  List.mem_erase_of_ne hqp

theorem mem_append_iff {a : List ℕ} {p q : ℕ} (hqp : q ≠ p) : q ∈ a ++ [p] ↔ q ∈ a := by
  rw [List.mem_append, List.mem_singleton, or_iff_left hqp]

theorem free_nodup (h : SlabsInv z k chain live x) : x.cache.free.Nodup := by
  have hnd := h.nodup
  unfold KmemCache.all at hnd
  exact hnd.of_append_left.of_append_left

theorem full_nodup (h : SlabsInv z k chain live x) : x.cache.full.Nodup := by
  have hnd := h.nodup
  unfold KmemCache.all at hnd
  exact hnd.of_append_right

/-- A slab that loses its last free object goes to the list of the full ones. -/
theorem moved_of_partial (h : SlabsInv z k chain live x) {p n : ℕ}
    (hmem : p ∈ x.cache.partialSlabs) (hn : n + 1 = (chain p).length) {d : ℤ} :
    Moved x.cache (if n = 0 then
        { x.cache with
          partialSlabs := x.cache.partialSlabs.erase p, full := x.cache.full ++ [p], objNum := d }
      else { x.cache with objNum := d }) (slabObjs (orderBytes k) z) p n := by
  have hp : p ∈ x.cache.all := mem_all.2 (.inr (.inl hmem))
  have hle := (h.slab p hp).queue.length_le
  obtain ⟨hne, hnil⟩ := (h.partial_iff hp).1 hmem
  have hpf : p ∉ x.cache.free := fun hf => hne ((h.free_iff p hp).1 hf)
  have hpfull : p ∉ x.cache.full := fun hf => hnil ((h.full_iff p hp).1 hf)
  split_ifs with h0
  · refine ⟨rfl, rfl, rfl, rfl, ?_, fun _ _ => Iff.rfl, fun q hq => mem_append_iff hq,
      iff_of_false hpf (by omega), iff_of_true (by simp) h0⟩
    unfold KmemCache.all
    rw [List.append_assoc, List.append_assoc]
    exact (perm_move hmem).append_left _
  · exact ⟨rfl, rfl, rfl, rfl, .refl _, fun _ _ => Iff.rfl, fun _ _ => Iff.rfl,
      iff_of_false hpf (by omega), iff_of_false hpfull h0⟩

/-- A slab of free objects goes to another list when one is taken. -/
theorem moved_of_free (h : SlabsInv z k chain live x) (hpart : x.cache.partialSlabs = []) {p n : ℕ}
    (hmem : p ∈ x.cache.free) (hn : n + 1 = (chain p).length) {d : ℤ} :
    Moved x.cache (if n = 0 then
        { x.cache with
          free := x.cache.free.erase p, full := x.cache.full ++ [p], objNum := d }
      else
        { x.cache with
          free := x.cache.free.erase p, partialSlabs := x.cache.partialSlabs ++ [p], objNum := d })
      (slabObjs (orderBytes k) z) p n := by
  have hp : p ∈ x.cache.all := mem_all.2 (.inl hmem)
  have hall := (h.free_iff p hp).1 hmem
  have hpfull : p ∉ x.cache.full := fun hf => by
    have := (h.full_iff p hp).1 hf
    omega
  split_ifs with h0
  · refine ⟨rfl, rfl, rfl, rfl, ?_, fun q hq => mem_erase_iff hq, fun q hq => mem_append_iff hq,
      iff_of_false h.free_nodup.not_mem_erase (by omega), iff_of_true (by simp) h0⟩
    unfold KmemCache.all
    rw [hpart, List.append_nil, List.append_nil]
    exact perm_move hmem
  · exact ⟨rfl, rfl, rfl, rfl, (perm_move hmem).append_right _, fun q hq => mem_erase_iff hq,
      fun _ _ => Iff.rfl, iff_of_false h.free_nodup.not_mem_erase (by omega),
      iff_of_false hpfull h0⟩

/-- The last part of `kmem_obj_alloc` finds an object whenever a slab has one. -/
theorem take_spec (h : SlabsInv z k chain live x) (hz : 0 < z)
    (hnum : 0 < x.cache.freeCount chain) :
    ∃ a y chain', x.take = some (some a, y) ∧ a ∉ live ∧
      SlabsInv z k chain' (insert a live) y ∧
      y.cache.freeCount chain' + 1 = x.cache.freeCount chain ∧
      y.cache.objNum = int32 (x.cache.objNum - 1) ∧ y.buddy = x.buddy := by
  unfold Kmem.take
  rw [sub_eq_add_neg]
  split
  · rename_i p ps hpart
    have hmem : p ∈ x.cache.partialSlabs := by simp [hpart]
    have hp : p ∈ x.cache.all := mem_all.2 (.inr (.inl hmem))
    obtain ⟨i, l, hc⟩ := List.exists_cons_of_length_pos
      (Nat.pos_of_ne_zero ((h.partial_iff hp).1 hmem).2)
    obtain ⟨s, hs, hfree, hfresh, hpop⟩ := h.pop hz hp hc
    have hm := h.moved_of_partial hmem (n := l.length) (by rw [hc, List.length_cons])
      (d := int32 (x.cache.objNum + -1))
    rw [hs]
    dsimp only
    rw [hfree]
    simp only [Nat.cast_eq_zero]
    obtain ⟨hinv, hcount⟩ := hpop _ hm (by split_ifs <;> rfl)
    exact ⟨_, _, _, rfl, hfresh, hinv, hcount, by split_ifs <;> rfl, rfl⟩
  · rename_i hpart
    split
    · -- no slab has a free object, against the count
      rename_i hfree
      exfalso
      have hzero : ∀ q ∈ x.cache.all, (chain q).length = 0 := by
        intro q hq
        refine (h.full_iff q hq).1 ?_
        rcases mem_all.1 hq with e | e | e
        · simp [hfree] at e
        · simp [hpart] at e
        · exact e
      unfold KmemCache.freeCount at hnum
      rw [List.map_congr_left hzero] at hnum
      simp at hnum
    · rename_i p ps hfree
      have hmem : p ∈ x.cache.free := by simp [hfree]
      have hp : p ∈ x.cache.all := mem_all.2 (.inl hmem)
      obtain ⟨i, l, hc⟩ := List.exists_cons_of_length_pos
        ((h.free_iff p hp).1 hmem ▸ h.pos p hp)
      obtain ⟨s, hs, hfree, hfresh, hpop⟩ := h.pop hz hp hc
      have hm := h.moved_of_free hpart hmem (n := l.length) (by rw [hc, List.length_cons])
        (d := int32 (x.cache.objNum + -1))
      rw [hs]
      dsimp only
      rw [hfree]
      simp only [Nat.cast_eq_zero]
      obtain ⟨hinv, hcount⟩ := hpop _ hm (by split_ifs <;> rfl)
      exact ⟨_, _, _, rfl, hfresh, hinv, hcount, by split_ifs <;> rfl, rfl⟩

/-- What other clients of the page allocator do leaves the cache alone. -/
theorem congr (h : SlabsInv z k chain live x) {y : Kmem A} (hcache : y.cache = x.cache)
    (hblock : ∀ p ∈ x.cache.all, A.blocks y.buddy p = A.blocks x.buddy p)
    (hpage : ∀ p ∈ x.cache.all, y.pages p = x.pages p)
    (hslab : ∀ p ∈ x.cache.all, y.slabs p = x.slabs p) : SlabsInv z k chain live y := by
  refine ⟨?_, ?_, ?_, ?_, ?_, fun p hp => ?_, fun p hp => ?_, fun p hp => ?_, fun p hp => ?_,
    ?_, ?_, ?_, fun a => ?_⟩ <;> rw [hcache] at *
  · exact h.objSize
  · exact h.pgOrder
  · exact h.nodup
  · exact h.pgOrhas
  · exact h.pgOrhas_le
  · rw [hblock p hp]
    exact h.block p hp
  · rw [hpage p hp]
    exact h.page p hp
  · exact h.pos p hp
  · rw [hslab p hp]
    exact h.slab p hp
  · exact h.free_iff
  · exact h.full_iff
  · exact h.objNum
  · rw [h.live_iff]
    constructor
    · rintro ⟨p, hp, i, hi, hn, rfl⟩
      exact ⟨p, hp, i, hi, hn, by rw [hslab p hp]⟩
    · rintro ⟨p, hp, i, hi, hn, rfl⟩
      exact ⟨p, hp, i, hi, hn, by rw [hslab p hp]⟩

/-- The count, with one more slab. -/
theorem freeCount_add {m m' : KmemCache} {p : ℕ} (hp : p ∉ m.all) (hperm : m'.all.Perm (p :: m.all))
    (chain : ℕ → List ℕ) (l : List ℕ) :
    m'.freeCount (Function.update chain p l) = m.freeCount chain + l.length := by
  have hsame : m.all.map (fun q => (Function.update chain p l q).length) =
      m.all.map fun q => (chain q).length := by
    refine List.map_congr_left fun q hq => ?_
    rw [Function.update_of_ne]
    rintro rfl
    exact hp hq
  unfold KmemCache.freeCount
  rw [(hperm.map fun q => (Function.update chain p l q).length).sum_eq, List.map_cons,
    List.sum_cons, Function.update_self, hsame, Nat.add_comm]

/-- A new slab, all of whose objects are free. -/
theorem addSlab (h : SlabsInv z k chain live x) {p : ℕ} {b : A.State} {pg : Pageframe} {s : Slab}
    {colour : ℤ} (hp : p ∉ x.cache.all) (hb : A.blocks b = Function.update (A.blocks x.buddy) p
      (some k)) (hpg : pg.pgtype = .slabAllocator ∧ pg.buddyFlags = flagHead)
    (hpos : 0 < slabObjs (orderBytes k) z)
    (hs : SlabOk (c.pg2va p) (orderBytes k) z s (List.range (slabObjs (orderBytes k) z)))
    (hlim : x.cache.pgOrhas < x.cache.pgOrlimit) :
    SlabsInv z k (Function.update chain p (List.range (slabObjs (orderBytes k) z))) live
      { x with
        buddy := b
        pages := Function.update x.pages p pg
        slabs := Function.update x.slabs p s
        cache := { x.cache with
          colorOffset := colour
          objNum := int32 (x.cache.objNum + s.objFree)
          pgOrhas := x.cache.pgOrhas + 1
          free := x.cache.free ++ [p] } } := by
  set n := slabObjs (orderBytes k) z with hn
  have hne : ∀ q ∈ x.cache.all, q ≠ p := fun q hq e => hp (e ▸ hq)
  have hperm : ((x.cache.free ++ [p]) ++ x.cache.partialSlabs ++ x.cache.full).Perm
      (p :: x.cache.all) := by
    unfold KmemCache.all
    rw [List.append_assoc, List.append_assoc, List.append_assoc]
    exact List.perm_middle
  have hmem : ∀ q, q ∈ (x.cache.free ++ [p]) ++ x.cache.partialSlabs ++ x.cache.full ↔
      q = p ∨ q ∈ x.cache.all := fun q => hperm.mem_iff.trans List.mem_cons
  have hfree : s.objFree = n := by rw [hs.objFree, List.length_range]
  refine ⟨h.objSize, h.pgOrder, hperm.nodup_iff.2 (List.nodup_cons.2 ⟨hp, h.nodup⟩), ?_, ?_,
    fun q hq => ?_, fun q hq => ?_, fun _ _ => hpos, fun q hq => ?_, fun q hq => ?_,
    fun q hq => ?_, ?_, fun a => ?_⟩
  · change x.cache.pgOrhas + 1 = ((x.cache.free ++ [p]) ++ _ ++ _ : List ℕ).length
    rw [hperm.length_eq, List.length_cons, h.pgOrhas]
    rfl
  · exact hlim
  · rcases (hmem q).1 hq with rfl | hq
    · change A.blocks b q = some k
      rw [hb, Function.update_self]
    · change A.blocks b q = some k
      rw [hb, Function.update_of_ne (hne q hq)]
      exact h.block q hq
  · dsimp only
    rcases (hmem q).1 hq with rfl | hq
    · rw [Function.update_self]
      exact hpg
    · rw [Function.update_of_ne (hne q hq)]
      exact h.page q hq
  · dsimp only
    rcases (hmem q).1 hq with rfl | hq
    · rw [Function.update_self, Function.update_self]
      exact hs
    · rw [Function.update_of_ne (hne q hq), Function.update_of_ne (hne q hq)]
      exact h.slab q hq
  · dsimp only
    rcases (hmem q).1 hq with rfl | hq
    · rw [Function.update_self, List.length_range]
      exact iff_of_true (by simp) rfl
    · rw [Function.update_of_ne (hne q hq)]
      exact (mem_append_iff (hne q hq)).trans (h.free_iff q hq)
  · dsimp only
    rcases (hmem q).1 hq with rfl | hq
    · rw [Function.update_self, List.length_range]
      refine iff_of_false (fun hf => hp (mem_all.2 (.inr (.inr hf)))) (by omega)
    · rw [Function.update_of_ne (hne q hq)]
      exact h.full_iff q hq
  · have hsum : ∀ m' : KmemCache, m'.all.Perm (p :: x.cache.all) →
        (x.cache.freeCount chain : ℤ) + n =
          (m'.freeCount (Function.update chain p (List.range n)) : ℕ) := by
      intro m' hm'
      have := freeCount_add hp hm' chain (List.range n)
      rw [List.length_range] at this
      omega
    dsimp only
    rw [hfree, h.objNum, int32_add]
    exact congrArg int32 (hsum _ hperm)
  · dsimp only
    rw [h.live_iff]
    constructor
    · rintro ⟨q, hq, i, hi, hni, rfl⟩
      refine ⟨q, (hmem q).2 (.inr hq), i, hi, ?_, ?_⟩
      · rwa [Function.update_of_ne (hne q hq)]
      · rw [Function.update_of_ne (hne q hq)]
    · rintro ⟨q, hq, i, hi, hni, rfl⟩
      rcases (hmem q).1 hq with rfl | hq
      · rw [Function.update_self] at hni
        exact absurd (List.mem_range.2 hi) hni
      · rw [Function.update_of_ne (hne q hq)] at hni ⊢
        exact ⟨q, hq, i, hi, hni, rfl⟩

theorem release_eq {p : ℕ} {b : A.State} (hpg : x.pages p = .handed k)
    (hfree : A.free x.buddy p = some b) : x.release p = some { x with buddy := b } := by
  unfold Kmem.release
  rw [if_pos (by rw [hpg]; exact ⟨rfl, rfl⟩), hfree]

/-- A failed attempt leaves the cache alone. -/
theorem growFailed (h : SlabsInv z k chain live x) {y : Kmem A} (hy : SlabRefused k x y) :
    SlabsInv z k chain live y := by
  refine h.congr hy.cache (fun p _ => by rw [hy.blocks]) (fun p hp => ?_)
    fun p _ => by rw [hy.slabs]
  refine (hy.pages p).resolve_right fun hfree => ?_
  have hnone := A.blocks_of_free hfree.1
  rw [h.block p hp] at hnone
  cases hnone

/-- Setting up one more slab, when the page allocator may fail. -/
theorem grow_spec (h : SlabsInv z k chain live x) (hz : 0 < z) (hlt : z < orderBytes k)
    (stack : ℕ → BitVec 8) (hlim : x.cache.pgOrhas < x.cache.pgOrlimit) :
    (x.grow stack = none ∧ 18 < k ∧ (A.alloc x.buddy k).1 ≠ none) ∨
    (∃ y, x.grow stack = some (false, y) ∧ SlabRefused k x y ∧
      ((A.alloc x.buddy k).1 = none ∨ slabObjs (orderBytes k) z = 0)) ∨
    ∃ y chain' p, x.grow stack = some (true, y) ∧ SlabsInv z k chain' live y ∧
      SlabAdded z k chain chain' x y p := by
  unfold Kmem.grow
  rw [h.pgOrder, Int.toNat_natCast, h.objSize]
  split
  · rename_i b halloc
    obtain ⟨hfree, hblocks⟩ := A.alloc_none halloc
    exact .inr (.inl ⟨_, rfl, ⟨rfl, rfl, hfree, hblocks, fun _ => .inl rfl⟩,
      .inl (congrArg Prod.fst halloc)⟩)
  · rename_i p b halloc
    obtain ⟨-, hsub, hfree, hb⟩ := A.alloc_some halloc
    rw [Int.toNat_natCast] at hsub hfree hb
    have hpfree := hsub (self_mem_pagesOf p k)
    have hnone := A.blocks_of_free hpfree
    have hp : p ∉ x.cache.all := by
      intro hp
      rw [h.block p hp] at hnone
      cases hnone
    have hblock : A.blocks b p = some k := by rw [hb, Function.update_self]
    obtain ⟨-, h0, hal, -⟩ := A.block_va hblock
    rw [show setPgfmAslab (.handed k) = some { Pageframe.handed k with
      pgtype := .slabAllocator } from if_pos ⟨rfl, rfl⟩]
    dsimp only
    rw [show initSlab { Pageframe.handed k with pgtype := .slabAllocator } (c.pg2va p) z
      x.cache.colorOffset stack = initSlabXip (c.pg2va p) (toInt32 (orderBytes k)) z
        x.cache.colorOffset stack from if_pos ⟨rfl, rfl⟩]
    by_cases hk : k ≤ 18
    · rw [toInt32_of_lt (orderBytes_lt hk)]
      rcases initSlabXip_spec x.cache.colorOffset stack h0.ne' hal hz hlt (sizeofSlab_le k)
        (orderBytes_lt hk) with ⟨hobjs, hi⟩ | ⟨hpos, s, hi, hs⟩
      · -- no object fits, and the block goes back
        obtain ⟨b', hfree', hpages', hb'⟩ := A.free_some hblock
        rw [hi]
        dsimp only
        rw [show setPgfmAsbuddy { Pageframe.handed k with pgtype := .slabAllocator } =
          some (.handed k) from if_pos ⟨rfl, rfl⟩]
        dsimp only
        rw [release_eq (Function.update_self ..) hfree']
        refine .inr (.inl ⟨_, rfl, ⟨rfl, rfl, ?_, ?_, fun q => ?_⟩, .inr hobjs⟩)
        · rw [hpages', hfree, Set.sdiff_union_of_subset hsub]
        · rw [hb', hb, Function.update_idem, ← hnone, Function.update_eq_self]
        · dsimp only
          by_cases hqp : q = p
          · subst hqp
            exact .inr ⟨hpfree, Function.update_self ..⟩
          · exact .inl (Function.update_of_ne hqp ..)
      · rw [hi]
        dsimp only
        rw [if_pos (by rw [hs.objAll, hs.objFree, List.length_range])]
        have hnum : s.objFree = slabObjs (orderBytes k) z := by
          rw [hs.objFree, List.length_range]
        refine .inr (.inr ⟨_, _, p, rfl, h.addSlab hp hb ⟨rfl, rfl⟩ hpos hs hlim, halloc, hpos, hk,
          rfl, rfl, rfl, by rw [hnum], rfl, rfl, ?_, fun q hq => Function.update_of_ne hq ..⟩)
        have hsum : ∀ m' : KmemCache, m'.all.Perm (p :: x.cache.all) →
            m'.freeCount (Function.update chain p (List.range (slabObjs (orderBytes k) z))) =
              x.cache.freeCount chain + slabObjs (orderBytes k) z := by
          intro m' hm'
          rw [freeCount_add hp hm', List.length_range]
        refine hsum _ ?_
        unfold KmemCache.all
        rw [List.append_assoc, List.append_assoc, List.append_assoc]
        exact List.perm_middle
    · left
      have hsize : ¬ 0 < toInt32 (orderBytes k) := fun hpos => hk (order_le_of_pos hpos)
      rw [show initSlabXip (c.pg2va p) (toInt32 (orderBytes k)) z x.cache.colorOffset stack = none
        from if_neg fun hassert => hsize hassert.2.1]
      refine ⟨rfl, not_le.1 hk, ?_⟩
      rw [halloc]
      exact Option.some_ne_none p

/-- A slab was set up. -/
theorem grow_true (h : SlabsInv z k chain live x) (hz : 0 < z) (hlt : z < orderBytes k)
    {stack : ℕ → BitVec 8} (hlim : x.cache.pgOrhas < x.cache.pgOrlimit) {y : Kmem A}
    (he : x.grow stack = some (true, y)) :
    ∃ chain' p, SlabsInv z k chain' live y ∧ SlabAdded z k chain chain' x y p := by
  rcases h.grow_spec hz hlt stack hlim with ⟨hn, -⟩ | ⟨v, hv, -⟩ | ⟨v, chain', p, hv, hinv, hadd⟩
  · rw [hn] at he
    cases he
  · rw [hv] at he
    cases he
  · rw [hv] at he
    cases he
    exact ⟨chain', p, hinv, hadd⟩

/-- No slab was set up. -/
theorem grow_false (h : SlabsInv z k chain live x) (hz : 0 < z) (hlt : z < orderBytes k)
    {stack : ℕ → BitVec 8} (hlim : x.cache.pgOrhas < x.cache.pgOrlimit) {y : Kmem A}
    (he : x.grow stack = some (false, y)) : SlabRefused k x y := by
  rcases h.grow_spec hz hlt stack hlim with ⟨hn, -⟩ | ⟨v, hv, hfail, -⟩ | ⟨v, chain', p, hv, -⟩
  · rw [hn] at he
    cases he
  · rw [hv] at he
    cases he
    exact hfail
  · rw [hv] at he
    cases he

/-- `kmem_obj_alloc` hands out an object that is not handed out yet, or `NULL`, or the size of a
new slab runs into an `ASSERT`. -/
theorem kmemObjAlloc_spec (h : SlabsInv z k chain live x) (hz : 0 < z) (hlt : z < orderBytes k)
    (stack : ℕ → BitVec 8) :
    (x.kmemObjAlloc stack = none ∧ 18 < k) ∨
    (∃ y, x.kmemObjAlloc stack = some (none, y) ∧ SlabRefused k x y ∧ CannotAlloc z k x) ∨
    ∃ a y chain', x.kmemObjAlloc stack = some (some a, y) ∧ a ∉ live ∧ ¬ CannotAlloc z k x ∧
      SlabsInv z k chain' (insert a live) y ∧ (x.cache.all = [] → k ≤ 18) ∧
      y.cache.freeCount chain' + 1 = x.cache.freeCount chain +
        (if x.cache.objNum = 0 then slabObjs (orderBytes k) z else 0) := by
  unfold Kmem.kmemObjAlloc
  by_cases hnum : x.cache.objNum = 0
  · rw [if_pos hnum, if_pos hnum]
    by_cases hlim : x.cache.pgOrlimit ≤ x.cache.pgOrhas
    · rw [if_pos hlim]
      exact .inr (.inl ⟨x, rfl, .refl k x, hnum, .inl hlim⟩)
    · rw [if_neg hlim]
      rcases h.grow_spec hz hlt stack (by omega) with ⟨hg, hk, -⟩ | ⟨y, hg, hy, hwhy⟩ |
        ⟨y, chain', p, hg, hy, hadd⟩
      · rw [hg]
        exact .inl ⟨rfl, hk⟩
      · rw [hg]
        exact .inr (.inl ⟨y, rfl, hy, hnum, .inr hwhy⟩)
      · have hpos := hadd.pos
        have hcount := hadd.freeCount
        obtain ⟨a, w, chain'', hw, hfresh, hinv, hw', -, -⟩ := hy.take_spec hz (by omega)
        rw [hg]
        refine .inr (.inr ⟨a, w, chain'', hw, hfresh, ?_, hinv, fun _ => hadd.order_le, by omega⟩)
        rintro ⟨-, hl | hnone | hobjs⟩
        · exact hlim hl
        · rw [hadd.alloc] at hnone
          cases hnone
        · omega
  · rw [if_neg hnum, if_neg hnum]
    have hpos : 0 < x.cache.freeCount chain := by
      by_contra hzero
      rw [h.objNum, show x.cache.freeCount chain = 0 by omega] at hnum
      exact hnum rfl
    obtain ⟨a, y, chain', hy, hfresh, hinv, hcount, -, -⟩ := h.take_spec hz hpos
    refine .inr (.inr ⟨a, y, chain', hy, hfresh, fun hcan => hnum hcan.1, hinv, fun hall => ?_,
      hcount⟩)
    unfold KmemCache.freeCount at hpos
    rw [hall] at hpos
    exact absurd hpos (lt_irrefl 0)

/-- An object was handed out. -/
theorem kmemObjAlloc_some (h : SlabsInv z k chain live x) (hz : 0 < z) (hlt : z < orderBytes k)
    {stack : ℕ → BitVec 8} {a : ℕ} {y : Kmem A} (he : x.kmemObjAlloc stack = some (some a, y)) :
    a ∉ live ∧ (x.cache.all = [] → k ≤ 18) ∧ ∃ chain', SlabsInv z k chain' (insert a live) y := by
  rcases h.kmemObjAlloc_spec hz hlt stack with ⟨hn, -⟩ | ⟨w, hw, -⟩ |
    ⟨b, w, chain', hw, hfresh, -, hinv, hle, -⟩
  · rw [hn] at he
    cases he
  · rw [hw] at he
    cases he
  · rw [hw] at he
    cases he
    exact ⟨hfresh, hle, chain', hinv⟩

/-- No object was handed out. -/
theorem kmemObjAlloc_none (h : SlabsInv z k chain live x) (hz : 0 < z) (hlt : z < orderBytes k)
    {stack : ℕ → BitVec 8} {y : Kmem A} (he : x.kmemObjAlloc stack = some (none, y)) :
    SlabRefused k x y := by
  rcases h.kmemObjAlloc_spec hz hlt stack with ⟨hn, -⟩ | ⟨w, hw, hfail, -⟩ | ⟨b, w, chain', hw, -⟩
  · rw [hn] at he
    cases he
  · rw [hw] at he
    cases he
    exact hfail
  · rw [hw] at he
    cases he

theorem covers_iff (h : SlabsInv z k chain live x) (hsz : SlabSize z k) {p a : ℕ}
    (hp : p ∈ x.cache.all) :
    x.Covers a p ↔ c.pg2va p < a ∧ a < c.pg2va p + orderBytes k := by
  have hlt := (A.block_va (h.block p hp)).2.2.2
  unfold Kmem.Covers
  rw [h.pgOrder, Int.toNat_natCast, toInt32_of_lt (orderBytes_lt hsz.order_le), ← Nat.cast_add,
    Int.emod_eq_of_lt (Int.natCast_nonneg _) (by exact_mod_cast hlt), Nat.cast_lt]

/-- What the first loop of `kmem_obj_free` asserts. -/
theorem partial_ok (h : SlabsInv z k chain live x) {q : ℕ} (hq : q ∈ x.cache.partialSlabs) :
    q ∈ x.cache.all ∧ decide ((x.slabs q).objFree < (x.slabs q).objAll) = true := by
  have hqall : q ∈ x.cache.all := mem_all.2 (.inr (.inl hq))
  have hq1 := (h.partial_iff hqall).1 hq
  have hq2 := (h.slab q hqall).queue.length_le
  refine ⟨hqall, decide_eq_true ?_⟩
  rw [(h.slab q hqall).objFree, (h.slab q hqall).objAll, Nat.cast_lt]
  omega

/-- What the second loop asserts. -/
theorem full_ok (h : SlabsInv z k chain live x) {q : ℕ} (hq : q ∈ x.cache.full) :
    q ∈ x.cache.all ∧ decide ((x.slabs q).objFree = 0) = true := by
  have hqall : q ∈ x.cache.all := mem_all.2 (.inr (.inr hq))
  refine ⟨hqall, decide_eq_true ?_⟩
  rw [(h.slab q hqall).objFree, (h.full_iff q hqall).1 hq]
  rfl

/-- The search for the slab of an object that is handed out. -/
theorem scan_spec (h : SlabsInv z k chain live x) (hsz : SlabSize z k) {p i : ℕ}
    (hp : p ∈ x.cache.all) (hi : i < slabObjs (orderBytes k) z) {ok : Slab → Bool} {L : List ℕ}
    (hL : ∀ q ∈ L, q ∈ x.cache.all ∧ ok (x.slabs q)) :
    x.scan ok ((x.slabs p).obj i) L = some (if p ∈ L then some p else none) := by
  induction L with
  | nil => rfl
  | cons q L ih =>
    obtain ⟨hq, hok⟩ := hL q List.mem_cons_self
    obtain ⟨h1, h2⟩ := h.page q hq
    have hobj := (h.slab p hp).obj_within hi
    have h40 : sizeofSlab = 40 := rfl
    have hz := hsz.pos
    unfold Kmem.scan
    rw [if_pos ⟨h1, h2, hok⟩]
    by_cases hqp : q = p
    · subst hqp
      rw [if_pos ((h.covers_iff hsz hq).2 ⟨by omega, by omega⟩), if_pos List.mem_cons_self]
    · have hnot : ¬ x.Covers ((x.slabs p).obj i) q := by
        rw [h.covers_iff hsz hq]
        exact fun hcov => hqp (h.slab_unique hz hp hi rfl hq hcov.1.le hcov.2).symm
      rw [if_neg hnot, ih fun r hr => hL r (List.mem_cons_of_mem q hr)]
      congr 1
      refine if_congr ?_ rfl rfl
      rw [List.mem_cons, or_iff_right fun e => hqp e.symm]

/-- A slab all of whose objects are free again goes to the list of those. -/
theorem moved_to_free (h : SlabsInv z k chain live x) {p n : ℕ}
    (hmem : p ∈ x.cache.partialSlabs) (hn : n = (chain p).length + 1) {d : ℤ} :
    Moved x.cache (if n = slabObjs (orderBytes k) z then
        { x.cache with
          partialSlabs := x.cache.partialSlabs.erase p, free := x.cache.free ++ [p], objNum := d }
      else { x.cache with objNum := d }) (slabObjs (orderBytes k) z) p n := by
  have hp : p ∈ x.cache.all := mem_all.2 (.inr (.inl hmem))
  obtain ⟨hne, hnil⟩ := (h.partial_iff hp).1 hmem
  have hpf : p ∉ x.cache.free := fun hf => hne ((h.free_iff p hp).1 hf)
  have hpfull : p ∉ x.cache.full := fun hf => hnil ((h.full_iff p hp).1 hf)
  split_ifs with h0
  · refine ⟨rfl, rfl, rfl, rfl, ?_, fun q hq => mem_append_iff hq, fun _ _ => Iff.rfl,
      iff_of_true (by simp) h0, iff_of_false hpfull (by omega)⟩
    have hmove := perm_move_left (b := x.cache.free) (d := []) hmem
    rw [List.append_nil, List.append_nil] at hmove
    exact hmove.append_right _
  · exact ⟨rfl, rfl, rfl, rfl, .refl _, fun _ _ => Iff.rfl, fun _ _ => Iff.rfl,
      iff_of_false hpf h0, iff_of_false hpfull (by omega)⟩

/-- A slab without free objects goes to another list when one is put back. -/
theorem moved_of_full (h : SlabsInv z k chain live x) {p n : ℕ} (hmem : p ∈ x.cache.full)
    (hn : n = (chain p).length + 1) {d : ℤ} :
    Moved x.cache (if n = slabObjs (orderBytes k) z then
        { x.cache with
          full := x.cache.full.erase p, free := x.cache.free ++ [p], objNum := d }
      else
        { x.cache with
          full := x.cache.full.erase p, partialSlabs := x.cache.partialSlabs ++ [p], objNum := d })
      (slabObjs (orderBytes k) z) p n := by
  have hp : p ∈ x.cache.all := mem_all.2 (.inr (.inr hmem))
  have hpf : p ∉ x.cache.free := fun hf => by
    have h1 := (h.free_iff p hp).1 hf
    have h2 := (h.full_iff p hp).1 hmem
    have h3 := h.pos p hp
    omega
  split_ifs with h0
  · exact ⟨rfl, rfl, rfl, rfl, perm_move_left hmem, fun q hq => mem_append_iff hq,
      fun q hq => mem_erase_iff hq, iff_of_true (by simp) h0,
      iff_of_false h.full_nodup.not_mem_erase (by omega)⟩
  · refine ⟨rfl, rfl, rfl, rfl, ?_, fun _ _ => Iff.rfl, fun q hq => mem_erase_iff hq,
      iff_of_false hpf h0, iff_of_false h.full_nodup.not_mem_erase (by omega)⟩
    have hmove := perm_move_left (b := x.cache.free ++ x.cache.partialSlabs) (d := []) hmem
    rw [List.append_nil, List.append_nil, List.append_assoc x.cache.free] at hmove
    exact hmove

/-- `kmem_obj_free` of an object that is handed out puts it back into its slab. -/
theorem kmemObjFree_spec (h : SlabsInv z k chain live x) (hsz : SlabSize z k) {a : ℕ}
    (ha : a ∈ live) : ∃ y chain', x.kmemObjFree a = some y ∧
      SlabsInv z k chain' (live.erase a) y ∧
      y.cache.freeCount chain' = x.cache.freeCount chain + 1 := by
  obtain ⟨p, hp, i, hi, hn, rfl⟩ := (h.live_iff a).1 ha
  have hok := h.slab p hp
  have hlt := hok.queue.length_lt hi hn
  obtain ⟨s, hs, hall, hpush⟩ := h.push hsz.pos hp hi hn
  have hne : (x.slabs p).obj i ≠ 0 := by
    have h0 := (A.block_va (h.block p hp)).2.1
    have := (hok.obj_within hi).1
    omega
  have hpart : x.scan (fun s => s.objFree < s.objAll) ((x.slabs p).obj i) x.cache.partialSlabs =
      some (if p ∈ x.cache.partialSlabs then some p else none) :=
    h.scan_spec hsz hp hi fun q hq => h.partial_ok hq
  have hfulls : x.scan (fun s => s.objFree = 0) ((x.slabs p).obj i) x.cache.full =
      some (if p ∈ x.cache.full then some p else none) :=
    h.scan_spec hsz hp hi fun q hq => h.full_ok hq
  unfold Kmem.kmemObjFree
  rw [if_neg hne, hpart]
  by_cases hmem : p ∈ x.cache.partialSlabs
  · have hm := h.moved_to_free hmem rfl (d := int32 (x.cache.objNum + 1))
    rw [if_pos hmem]
    dsimp only
    rw [hs]
    simp only [hall]
    obtain ⟨hinv, hcount⟩ := hpush _ hm (by split_ifs <;> rfl)
    exact ⟨_, _, rfl, hinv, hcount⟩
  · have hmemf : p ∈ x.cache.full := by
      rw [h.full_iff p hp]
      rw [h.partial_iff hp] at hmem
      omega
    have hm := h.moved_of_full hmemf rfl (d := int32 (x.cache.objNum + 1))
    rw [if_neg hmem]
    dsimp only
    rw [hfulls, if_pos hmemf]
    dsimp only
    rw [hs]
    simp only [hall]
    obtain ⟨hinv, hcount⟩ := hpush _ hm (by split_ifs <;> rfl)
    exact ⟨_, _, rfl, hinv, hcount⟩

end SlabsInv

/-! ### A cache with a counter that is right -/

/-- A cache of objects of `z` bytes in slabs of order `k`: the free objects of the slab of
page `p` are `chain p`, and the objects at the addresses `live` are handed out. -/
structure CacheInv (z k : ℕ) (chain : ℕ → List ℕ) (live : Finset ℕ) (x : Kmem A) : Prop where
  objSize : x.cache.objSize = z
  pgOrder : x.cache.pgOrder = k
  nodup : x.cache.all.Nodup
  pgOrhas : x.cache.pgOrhas = x.cache.all.length
  pgOrhas_le : x.cache.pgOrhas ≤ x.cache.pgOrlimit
  block : ∀ p ∈ x.cache.all, A.blocks x.buddy p = some k
  page : ∀ p ∈ x.cache.all,
    (x.pages p).pgtype = .slabAllocator ∧ (x.pages p).buddyFlags = flagHead
  pos : ∀ p ∈ x.cache.all, 0 < slabObjs (orderBytes k) z
  slab : ∀ p ∈ x.cache.all, SlabOk (c.pg2va p) (orderBytes k) z (x.slabs p) (chain p)
  free_iff : ∀ p ∈ x.cache.all, p ∈ x.cache.free ↔ (chain p).length = slabObjs (orderBytes k) z
  full_iff : ∀ p ∈ x.cache.all, p ∈ x.cache.full ↔ (chain p).length = 0
  objNum : x.cache.objNum = (x.cache.all.map fun p => (chain p).length).sum
  objNum_lt : x.cache.objNum < 2 ^ 31
  live_iff : ∀ a, a ∈ live ↔ ∃ p ∈ x.cache.all, ∃ i < slabObjs (orderBytes k) z,
    i ∉ chain p ∧ a = (x.slabs p).obj i

namespace CacheInv

variable {z k : ℕ} {chain : ℕ → List ℕ} {live : Finset ℕ} {x : Kmem A}

theorem freeCount_lt (h : CacheInv z k chain live x) : (x.cache.freeCount chain : ℤ) < 2 ^ 31 := by
  have hlt := h.objNum_lt
  rwa [h.objNum] at hlt

theorem slabsInv (h : CacheInv z k chain live x) : SlabsInv z k chain live x :=
  ⟨h.objSize, h.pgOrder, h.nodup, h.pgOrhas, h.pgOrhas_le, h.block, h.page, h.pos, h.slab,
    h.free_iff, h.full_iff,
    h.objNum.trans (int32_of_lt (Int.natCast_nonneg _) h.freeCount_lt).symm, h.live_iff⟩

theorem of_slabsInv (h : SlabsInv z k chain live x)
    (hlt : (x.cache.freeCount chain : ℤ) < 2 ^ 31) : CacheInv z k chain live x := by
  have hnum : x.cache.objNum = x.cache.freeCount chain :=
    h.objNum.trans (int32_of_lt (Int.natCast_nonneg _) hlt)
  exact ⟨h.objSize, h.pgOrder, h.nodup, h.pgOrhas, h.pgOrhas_le, h.block, h.page, h.pos, h.slab,
    h.free_iff, h.full_iff, hnum, by rwa [hnum], h.live_iff⟩

theorem freeCount_eq (h : CacheInv z k chain live x) :
    x.cache.objNum = x.cache.freeCount chain := h.objNum

/-- What other clients of the page allocator do leaves the cache alone. -/
theorem congr (h : CacheInv z k chain live x) {y : Kmem A} (hcache : y.cache = x.cache)
    (hblock : ∀ p ∈ x.cache.all, A.blocks y.buddy p = A.blocks x.buddy p)
    (hpage : ∀ p ∈ x.cache.all, y.pages p = x.pages p)
    (hslab : ∀ p ∈ x.cache.all, y.slabs p = x.slabs p) : CacheInv z k chain live y := by
  refine .of_slabsInv (h.slabsInv.congr hcache hblock hpage hslab) ?_
  rw [hcache]
  exact h.freeCount_lt

/-- Setting up one more slab, when the page allocator may fail. -/
theorem grow_spec (h : CacheInv z k chain live x) (hsz : SlabSize z k) (stack : ℕ → BitVec 8)
    (hlim : x.cache.pgOrhas < x.cache.pgOrlimit)
    (hnum : x.cache.objNum + slabObjs (orderBytes k) z < 2 ^ 31) :
    (∃ y, x.grow stack = some (false, y) ∧ y.cache = x.cache ∧ CacheInv z k chain live y) ∨
    ∃ y chain', x.grow stack = some (true, y) ∧ CacheInv z k chain' live y ∧
      0 < slabObjs (orderBytes k) z ∧
      y.cache.objNum = x.cache.objNum + slabObjs (orderBytes k) z ∧
      y.cache.pgOrhas = x.cache.pgOrhas + 1 ∧ y.cache.pgOrlimit = x.cache.pgOrlimit := by
  have hle := hsz.order_le
  rcases h.slabsInv.grow_spec hsz.pos hsz.lt stack hlim with ⟨-, hk, -⟩ | ⟨y, hg, hy, -⟩ |
    ⟨y, chain', p, hg, hy, hadd⟩
  · omega
  · refine .inl ⟨y, hg, hy.cache, .of_slabsInv (h.slabsInv.growFailed hy) ?_⟩
    rw [hy.cache]
    exact h.freeCount_lt
  · have hcount := hadd.freeCount
    have hlt : (y.cache.freeCount chain' : ℤ) < 2 ^ 31 := by
      rw [h.freeCount_eq] at hnum
      omega
    have hinv := CacheInv.of_slabsInv hy hlt
    refine .inr ⟨y, chain', hg, hinv, hadd.pos, ?_, hadd.pgOrhas, hadd.pgOrlimit⟩
    rw [hinv.freeCount_eq, h.freeCount_eq, hcount, Nat.cast_add]

/-- `kmem_obj_alloc` hands out an object that is not handed out yet, or `NULL`. -/
theorem kmemObjAlloc_spec (h : CacheInv z k chain live x) (hsz : SlabSize z k)
    (stack : ℕ → BitVec 8) :
    (∃ y, x.kmemObjAlloc stack = some (none, y) ∧ SlabRefused k x y ∧
      CannotAlloc z k x ∧ CacheInv z k chain live y) ∨
    ∃ a y chain', x.kmemObjAlloc stack = some (some a, y) ∧ a ∉ live ∧
      ¬ CannotAlloc z k x ∧ CacheInv z k chain' (insert a live) y ∧
      y.cache.objNum + 1 =
        if x.cache.objNum = 0 then (slabObjs (orderBytes k) z : ℤ) else x.cache.objNum := by
  have hle := hsz.order_le
  have hobjs : slabObjs (orderBytes k) z < 2 ^ 31 :=
    lt_of_le_of_lt ((Nat.div_le_self _ _).trans (Nat.sub_le _ _)) (orderBytes_lt hle)
  have hlt := h.freeCount_lt
  have heq := h.freeCount_eq
  rcases h.slabsInv.kmemObjAlloc_spec hsz.pos hsz.lt stack with ⟨-, hk⟩ | ⟨y, hy, hfail, hcan⟩ |
    ⟨a, y, chain', hy, hfresh, hcan, hinv, -, hcount⟩
  · omega
  · refine .inl ⟨y, hy, hfail, hcan, .of_slabsInv (h.slabsInv.growFailed hfail) ?_⟩
    rw [hfail.cache]
    exact hlt
  · have hlt' : (y.cache.freeCount chain' : ℤ) < 2 ^ 31 := by
      split_ifs at hcount with h0
      · rw [h0] at heq
        omega
      · omega
    have hinv' := CacheInv.of_slabsInv hinv hlt'
    have heq' := hinv'.freeCount_eq
    refine .inr ⟨a, y, chain', hy, hfresh, hcan, hinv', ?_⟩
    split_ifs at hcount ⊢ with h0
    · rw [h0] at heq
      omega
    · omega

/-- `kmem_obj_free` of an object that is handed out finds its slab; the cache is right
afterwards unless the counter of free objects overflows. -/
theorem kmemObjFree_spec (h : CacheInv z k chain live x) (hsz : SlabSize z k) {a : ℕ}
    (ha : a ∈ live) : ∃ y, x.kmemObjFree a = some y ∧
      (x.cache.objNum < 2 ^ 31 - 1 → ∃ chain', CacheInv z k chain' (live.erase a) y) := by
  obtain ⟨y, chain', hy, hinv, hcount⟩ := h.slabsInv.kmemObjFree_spec hsz ha
  refine ⟨y, hy, fun hmax => ⟨chain', .of_slabsInv hinv ?_⟩⟩
  rw [h.freeCount_eq] at hmax
  omega

end CacheInv

end AcoOs
