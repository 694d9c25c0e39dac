/-
What the calls on a slab cache store in memory, byte by byte.

`kmem_obj_alloc` hands out whatever bytes an object has.  Here every store of the allocator is made:
`bkp_alloc_zero` clears the block of a new slab, `init_slab_xip` writes the `slab_t` and the array
behind it, and `slab_alloc` and `slab_free` write in these two only (`SlabOk.slabAllocStores_of_le`,
`SlabOk.slabFreeStores_of_le`).

`SlabMemory` is a cache with the memory it lies in; its functions do to the cache what those of
`Kmem` do (`SlabMemory.kmemCacheInit_kmem` and the two behind it).
-/
import AcoOs.SlabCalls

namespace AcoOs

open IndexQueue

/-! ### Bytes -/

/-- The byte at each address. -/
abbrev Bytes := ℕ → BitVec 8

namespace Bytes

variable {m : Bytes} {a b n : ℕ}

/-- A store of `n` bytes, the lowest one first. -/
def store (m : Bytes) (a n : ℕ) (v : ℤ) : Bytes := fun b =>
  if a ≤ b ∧ b < a + n then BitVec.ofInt 8 (v / 2 ^ (8 * (b - a))) else m b

/-- A load of `n` bytes, the lowest one first. -/
def load (m : Bytes) (a : ℕ) : ℕ → ℕ
  | 0 => 0
  | n + 1 => (m a).toNat + 2 ^ 8 * load m (a + 1) n

/-- `memset` with the byte `c`. -/
def memset (m : Bytes) (des : ℕ) (c : BitVec 8) (n : ℕ) : Bytes :=
  if des = 0 then m else fun b => if des ≤ b ∧ b < des + n then c else m b

/-- All of `n` bytes are zero. -/
def Zero (m : Bytes) (a n : ℕ) : Prop := ∀ b, a ≤ b → b < a + n → m b = 0

theorem store_of_lt (v : ℤ) (h : b < a) : m.store a n v b = m b := if_neg fun hb => by omega

theorem store_of_le (v : ℤ) (h : a + n ≤ b) : m.store a n v b = m b := if_neg fun hb => by omega

/-- A store of zeros in zeros. -/
theorem Zero.store {d l : ℕ} (h : m.Zero a n) : (m.store d l 0).Zero a n := by
  intro b hlo hhi
  unfold Bytes.store
  split_ifs
  · rw [Int.zero_ediv]
    rfl
  · exact h b hlo hhi

theorem Zero.load (h : m.Zero a n) : m.load a n = 0 := by
  induction n generalizing a with
  | zero => rfl
  | succ n ih =>
    have hhead := h a le_rfl (by omega)
    have htail := ih (a := a + 1) fun b hlo hhi => h b (by omega) (by omega)
    unfold Bytes.load
    rw [hhead, htail]
    rfl

theorem Zero.mono {d l : ℕ} (h : m.Zero a n) (hlo : a ≤ d) (hhi : d + l ≤ a + n) : m.Zero d l :=
  fun b h1 h2 => h b (by omega) (by omega)

theorem memset_of_lt (c : BitVec 8) (h : b < a) : m.memset a c n b = m b := by
  unfold memset
  split_ifs
  · rfl
  · exact if_neg fun hb => by omega

theorem memset_of_le (c : BitVec 8) (h : a + n ≤ b) : m.memset a c n b = m b := by
  unfold memset
  split_ifs
  · rfl
  · exact if_neg fun hb => by omega

theorem memset_zero (ha : a ≠ 0) : (m.memset a 0 n).Zero a n := by
  intro b hlo hhi
  unfold memset
  rw [if_neg ha]
  exact if_pos ⟨hlo, hhi⟩

/-! ### Loads and stores -/

section LoadStore

variable {m' : Bytes} {k v : ℕ}

theorem load_congr (h : ∀ c, a ≤ c → c < a + n → m' c = m c) : m'.load a n = m.load a n := by
  induction n generalizing a with
  | zero => rfl
  | succ n ih =>
    rw [load, load, h a le_rfl (by omega)]
    exact congrArg _ (congrArg _ (ih fun c h1 h2 => h c (by omega) (by omega)))

/-- A load from other bytes. -/
theorem load_store_apart (v : ℤ) (h : a + n ≤ b ∨ b + k ≤ a) :
    (m.store b k v).load a n = m.load a n :=
  load_congr fun c h1 h2 => if_neg fun hc => by omega

/-- A load of what was stored. -/
theorem load_store (m : Bytes) (a n v : ℕ) : (m.store a n v).load a n = v % 2 ^ (8 * n) := by
  induction n generalizing a v with
  | zero =>
    rw [load, Nat.mul_zero, pow_zero, Nat.mod_one]
  | succ n ih =>
    -- the bytes behind the first one are those of the number without its lowest byte
    have hrest : (m.store a (n + 1) v).load (a + 1) n =
        (m.store (a + 1) n (v / 2 ^ 8 : ℕ)).load (a + 1) n := by
      refine load_congr fun c h1 h2 => ?_
      unfold store
      rw [if_pos (by omega), if_pos (by omega)]
      congr 1
      rw [Int.natCast_ediv, Int.ediv_ediv_of_nonneg (by positivity), Nat.cast_pow,
        Nat.cast_ofNat, ← pow_add, show 8 * (c - a) = 8 + 8 * (c - (a + 1)) by omega]
    have hfirst : ((m.store a (n + 1) v) a).toNat = v % 2 ^ 8 := by
      unfold store
      rw [if_pos (by omega), Nat.sub_self, Nat.mul_zero, pow_zero, Int.ediv_one, BitVec.toNat_ofInt,
        ← Int.natCast_mod, Int.toNat_natCast]
    rw [load, hfirst, hrest, ih, show 8 * (n + 1) = 8 + 8 * n by omega, pow_add, Nat.mod_mul]

theorem load_store_of_lt (h : v < 2 ^ (8 * n)) : (m.store a n v).load a n = v :=
  (load_store m a n v).trans (Nat.mod_eq_of_lt h)

end LoadStore

end Bytes

/-! ### The stores in one slab -/

/-- The loop of `init_slab_xip` after `n` iterations, with `entry i` what it stores at index `i` of
the array. -/
def storeIndices (m : Bytes) (start : ℕ) (entry : ℕ → ℤ) : ℕ → Bytes
  | 0 => m
  | n + 1 => (storeIndices m start entry n).store (start + sizeofSlab + 4 * n) 4 (entry n)

/-- The stores of `init_slab_xip` that makes the slab `s` at the address `start`. -/
def initSlabStores (m : Bytes) (start : ℕ) (s : Slab) : Bytes :=
  let m := m.store start 4 s.objAll
  let m := m.store (start + 4) 4 s.objFree
  let m := m.store (start + 8) 4 s.objSize
  -- `mem_index_start` and `mem_obj_start`
  let m := m.store (start + 24) 8 (start + sizeofSlab : ℕ)
  let m := m.store (start + 32) 8 s.memObjStart
  let m := storeIndices m start s.memIndexStart s.objAll.toNat
  let m := m.store (start + 12) 4 s.memFreeHead
  m.store (start + 16) 4 s.memFreeTail

/-- The store in an entry of the array. -/
def storeIndex (m : Bytes) (start index : ℕ) (v : ℤ) : Bytes :=
  m.store (start + sizeofSlab + 4 * index) 4 v

/-- The stores of `slab_alloc`. -/
def slabAllocStores (m : Bytes) (start : ℕ) (s : Slab) : Bytes :=
  if s.objFree = 0 then m
  else
    let index := s.memFreeHead.toNat
    let m := m.store (start + 12) 4 (s.memIndexStart index)
    let m := storeIndex m start index (-1)
    let m := m.store (start + 4) 4 (s.objFree - 1)
    if s.objFree - 1 = 0 then (m.store (start + 12) 4 (-1)).store (start + 16) 4 (-1) else m

/-- The stores of `slab_free`. -/
def slabFreeStores (m : Bytes) (start : ℕ) (s : Slab) (address : ℕ) : Bytes :=
  let index := (address - s.memObjStart) / s.objSize.toNat
  let m :=
    if s.objFree = 0 then
      storeIndex ((m.store (start + 12) 4 index).store (start + 16) 4 index) start index index
    else
      (storeIndex (storeIndex m start s.memFreeTail.toNat index) start index index).store
        (start + 16) 4 index
  m.store (start + 4) 4 (s.objFree + 1)

/-- The `slab_t` and the array behind it are untouched from `b` on. -/
theorem storeIndices_of_le {m : Bytes} {start b n : ℕ} (entry : ℕ → ℤ)
    (h : b < start ∨ start + sizeofSlab + 4 * n ≤ b) : storeIndices m start entry n b = m b := by
  induction n with
  | zero => rfl
  | succ n ih =>
    unfold storeIndices
    rcases h with h | h
    · rw [Bytes.store_of_lt _ (by omega)]
      exact ih (.inl h)
    · rw [Bytes.store_of_le _ (by omega)]
      exact ih (.inr (by omega))

/-- A store in the `slab_t` is not one at `b`. -/
theorem store_header {m : Bytes} {start b n d : ℕ} (v : ℤ) (hd : d + n ≤ sizeofSlab)
    (h : b < start ∨ start + sizeofSlab ≤ b) : m.store (start + d) n v b = m b := by
  rcases h with h | h
  · exact Bytes.store_of_lt _ (by omega)
  · exact Bytes.store_of_le _ (by omega)

/-- A store in the array is not one at `b`. -/
theorem storeIndex_of_le {m : Bytes} {start b n i : ℕ} (v : ℤ) (hi : i < n)
    (h : b < start ∨ start + sizeofSlab + 4 * n ≤ b) : storeIndex m start i v b = m b := by
  unfold storeIndex
  rcases h with h | h
  · exact Bytes.store_of_lt _ (by omega)
  · exact Bytes.store_of_le _ (by omega)

theorem initSlabStores_of_le {m : Bytes} {start b : ℕ} {s : Slab}
    (h : b < start ∨ start + sizeofSlab + 4 * s.objAll.toNat ≤ b) :
    initSlabStores m start s b = m b := by
  have hout : b < start ∨ start + sizeofSlab ≤ b := by omega
  unfold initSlabStores
  rw [store_header _ (by decide) hout, store_header _ (by decide) hout, storeIndices_of_le _ h,
    store_header _ (by decide) hout, store_header _ (by decide) hout,
    store_header _ (by decide) hout, store_header _ (by decide) hout]
  exact store_header (d := 0) _ (by decide) hout

namespace SlabOk

variable {start size z b : ℕ} {s : Slab} {l : List ℕ} {m : Bytes}

/-- `slab_alloc` stores in the `slab_t` and the array only. -/
theorem slabAllocStores_of_le (h : SlabOk start size z s l)
    (hb : b < start ∨ start + sizeofSlab + 4 * slabObjs size z ≤ b) :
    slabAllocStores m start s b = m b := by
  have hout : b < start ∨ start + sizeofSlab ≤ b := by omega
  unfold slabAllocStores
  cases l with
  | nil => rw [if_pos (show s.objFree = 0 from h.objFree)]
  | cons i l =>
    have hi := h.queue.lt i List.mem_cons_self
    have hhead : s.memFreeHead = i := h.queue.head_eq i rfl
    have hne : s.objFree ≠ 0 := by
      rw [h.objFree, List.length_cons]
      omega
    rw [if_neg hne, hhead, Int.toNat_natCast]
    split_ifs
    · rw [store_header _ (by decide) hout, store_header _ (by decide) hout,
        store_header _ (by decide) hout, storeIndex_of_le _ hi hb, store_header _ (by decide) hout]
    · rw [store_header _ (by decide) hout, storeIndex_of_le _ hi hb,
        store_header _ (by decide) hout]

/-- `slab_free` of an object stores in the `slab_t` and the array only. -/
theorem slabFreeStores_of_le (h : SlabOk start size z s l) (hz : 0 < z) {i : ℕ}
    (hi : i < slabObjs size z) (hb : b < start ∨ start + sizeofSlab + 4 * slabObjs size z ≤ b) :
    slabFreeStores m start s (s.obj i) b = m b := by
  have hout : b < start ∨ start + sizeofSlab ≤ b := by omega
  have hindex : (s.obj i - s.memObjStart) / s.objSize.toNat = i := by
    rw [h.obj_eq, h.objSize_eq, Int.toNat_natCast, Nat.add_sub_cancel_left,
      Nat.mul_div_cancel_left i hz]
  unfold slabFreeStores
  rw [hindex, store_header _ (by decide) hout]
  by_cases hl : l = []
  · rw [if_pos (by rw [h.objFree, hl]; rfl), storeIndex_of_le _ hi hb,
      store_header _ (by decide) hout, store_header _ (by decide) hout]
  · -- the last free object is one of the slab
    have hlast := List.getLast?_eq_some_getLast hl
    have htail := h.queue.tail_eq _ hlast
    have hlt := h.queue.lt _ (List.getLast_mem hl)
    have hlen := List.length_pos_iff.2 hl
    have hfree := h.objFree
    rw [if_neg (show s.objFree ≠ 0 by omega), htail, Int.toNat_natCast,
      store_header _ (by decide) hout, storeIndex_of_le _ hi hb, storeIndex_of_le _ hlt hb]

end SlabOk

/-! ### A cache in memory -/

variable {c : Layout}

namespace Kmem

variable {A : PageAllocator c}

/-- What `init_slab` makes of the block of page `p`. -/
def newSlab (x : Kmem A) (p : ℕ) (stack : ℕ → BitVec 8) : Option (Option Slab) :=
  match setPgfmAslab (.handed x.cache.pgOrder.toNat) with
  | none => none
  | some pg => initSlab pg (c.pg2va p) x.cache.objSize x.cache.colorOffset stack

/-- The stores of `grow`: `bkp_alloc_zero` clears the block and `init_slab` makes a slab of it. -/
def growStores (x : Kmem A) (stack : ℕ → BitVec 8) (m : Bytes) : Bytes :=
  match A.alloc x.buddy x.cache.pgOrder with
  | (none, _) => m
  | (some p, _) =>
    let m := m.memset (c.pg2va p) 0 (orderBytes x.cache.pgOrder.toNat)
    match x.newSlab p stack with
    | some (some s) => initSlabStores m (c.pg2va p) s
    | _ => m

/-- The stores of `take`. -/
def takeStores (x : Kmem A) (m : Bytes) : Bytes :=
  match x.cache.partialSlabs with
  | p :: _ => slabAllocStores m (c.pg2va p) (x.slabs p)
  | [] =>
    match x.cache.free with
    | p :: _ => slabAllocStores m (c.pg2va p) (x.slabs p)
    | [] => m

/-- The stores of `kmem_obj_free`. -/
def freeStores (x : Kmem A) (address : ℕ) (m : Bytes) : Bytes :=
  if address = 0 then m
  else
    match x.scan (fun s => s.objFree < s.objAll) address x.cache.partialSlabs with
    | none => m
    | some (some p) => slabFreeStores m (c.pg2va p) (x.slabs p) address
    | some none =>
      match x.scan (fun s => s.objFree = 0) address x.cache.full with
      | some (some p) => slabFreeStores m (c.pg2va p) (x.slabs p) address
      | _ => m

/-- The address of an object of the cache, handed out or free. -/
def IsObject (x : Kmem A) (a : ℕ) : Prop :=
  ∃ p ∈ x.cache.all, ∃ i < (x.slabs p).objAll.toNat, a = (x.slabs p).obj i

end Kmem

/-- A cache and the memory. -/
structure SlabMemory (A : PageAllocator c) where
  kmem : Kmem A
  bytes : Bytes

namespace SlabMemory

variable {A : PageAllocator c}

/-- `grow`. -/
def grow (x : SlabMemory A) (stack : ℕ → BitVec 8) : Option (Bool × SlabMemory A) :=
  match x.kmem.grow stack with
  | none => none
  | some (more, k) => some (more, ⟨k, x.kmem.growStores stack x.bytes⟩)

/-- `take`. -/
def take (x : SlabMemory A) : Option (Option ℕ × SlabMemory A) :=
  match x.kmem.take with
  | none => none
  | some (ret, k) => some (ret, ⟨k, x.kmem.takeStores x.bytes⟩)

/-- The loop of `kmem_cache_init`. -/
def initLoop (x : SlabMemory A) (stack : ℕ → ℕ → BitVec 8) : ℕ → Option (Bool × SlabMemory A)
  | 0 => some (true, x)
  | n + 1 =>
    match initLoop x stack n with
    | none => none
    | some (false, x) => some (false, x)
    | some (true, x) => x.grow (stack n)

/-- `kmem_cache_init`; giving slabs back stores nothing in them. -/
def kmemCacheInit (x : SlabMemory A) (a : KmemArgs) (stack : ℕ → ℕ → BitVec 8) :
    Option (ℤ × SlabMemory A) :=
  if a.Accepted c then
    match initLoop { x with kmem := { x.kmem with cache := a.cache } } stack
      a.initPgorAlloc.toNat with
    | none => none
    | some (true, x) => some (0, x)
    | some (false, x) =>
      match x.kmem.freeSlabs x.kmem.cache.free with
      | none => none
      | some k => some (-enomem, ⟨k, x.bytes⟩)
  else some (-efault, x)

/-- `kmem_obj_alloc`. -/
def kmemObjAlloc (x : SlabMemory A) (stack : ℕ → BitVec 8) :
    Option (Option ℕ × SlabMemory A) :=
  if x.kmem.cache.objNum = 0 then
    if x.kmem.cache.pgOrlimit ≤ x.kmem.cache.pgOrhas then some (none, x)
    else
      match x.grow stack with
      | none => none
      | some (false, x) => some (none, x)
      | some (true, x) => x.take
  else x.take

/-- `kmem_obj_free`. -/
def kmemObjFree (x : SlabMemory A) (address : ℕ) : Option (SlabMemory A) :=
  match x.kmem.kmemObjFree address with
  | none => none
  | some k => some ⟨k, x.kmem.freeStores address x.bytes⟩

/-- The functions do to the cache what they do without the memory. -/
theorem initLoop_kmem (x : SlabMemory A) (stack : ℕ → ℕ → BitVec 8) (n : ℕ) :
    (x.initLoop stack n).map (fun r => (r.1, r.2.kmem)) = x.kmem.initLoop stack n := by
  induction n with
  | zero => rfl
  | succ n ih =>
    unfold initLoop Kmem.initLoop
    rw [← ih]
    rcases x.initLoop stack n with - | ⟨more, y⟩
    · rfl
    · cases more with
      | false => rfl
      | true =>
        unfold grow
        dsimp only [Option.map_some]
        rcases y.kmem.grow (stack n) with - | ⟨more, k⟩ <;> rfl

theorem kmemCacheInit_kmem (x : SlabMemory A) (a : KmemArgs) (stack : ℕ → ℕ → BitVec 8) :
    (x.kmemCacheInit a stack).map (fun r => (r.1, r.2.kmem)) = x.kmem.kmemCacheInit a stack := by
  unfold kmemCacheInit
  by_cases ha : a.Accepted c
  · rw [if_pos ha, kmemCacheInit_eq ha,
      ← initLoop_kmem { x with kmem := { x.kmem with cache := _ } }]
    split
    · rename_i he
      rw [he]
      rfl
    · rename_i y he
      rw [he]
      rfl
    · rename_i y he
      rw [he]
      dsimp only [Option.map_some]
      rcases y.kmem.freeSlabs y.kmem.cache.free with - | k <;> rfl
  · rw [if_neg ha]
    exact (if_pos (not_not.1 ha)).symm

theorem kmemObjAlloc_kmem (x : SlabMemory A) (stack : ℕ → BitVec 8) :
    (x.kmemObjAlloc stack).map (fun r => (r.1, r.2.kmem)) = x.kmem.kmemObjAlloc stack := by
  unfold kmemObjAlloc Kmem.kmemObjAlloc
  split_ifs
  · rfl
  · unfold grow
    rcases x.kmem.grow stack with - | ⟨more, k⟩
    · rfl
    · cases more with
      | false => rfl
      | true =>
        unfold take
        dsimp only
        rcases k.take with - | ⟨ret, k'⟩ <;> rfl
  · unfold take
    rcases x.kmem.take with - | ⟨ret, k⟩ <;> rfl

theorem kmemObjFree_kmem (x : SlabMemory A) (address : ℕ) :
    (x.kmemObjFree address).map kmem = x.kmem.kmemObjFree address := by
  unfold kmemObjFree
  rcases x.kmem.kmemObjFree address with - | k <;> rfl

variable {x : SlabMemory A}

theorem kmemCacheInit_of_kmem {a : KmemArgs} {stack : ℕ → ℕ → BitVec 8} {e : ℤ} {k : Kmem A}
    (h : x.kmem.kmemCacheInit a stack = some (e, k)) :
    ∃ m, x.kmemCacheInit a stack = some (e, m) ∧ m.kmem = k := by
  rw [← kmemCacheInit_kmem] at h
  obtain ⟨⟨_, m⟩, hm, he⟩ := Option.map_eq_some_iff.1 h
  cases he
  exact ⟨m, hm, rfl⟩

theorem kmemObjAlloc_of_kmem {stack : ℕ → BitVec 8} {r : Option ℕ} {k : Kmem A}
    (h : x.kmem.kmemObjAlloc stack = some (r, k)) :
    ∃ m, x.kmemObjAlloc stack = some (r, m) ∧ m.kmem = k := by
  rw [← kmemObjAlloc_kmem] at h
  obtain ⟨⟨_, m⟩, hm, he⟩ := Option.map_eq_some_iff.1 h
  cases he
  exact ⟨m, hm, rfl⟩

theorem kmemObjFree_of_kmem {address : ℕ} {k : Kmem A}
    (h : x.kmem.kmemObjFree address = some k) :
    ∃ m, x.kmemObjFree address = some m ∧ m.kmem = k := by
  rw [← kmemObjFree_kmem] at h
  exact Option.map_eq_some_iff.1 h

end SlabMemory

end AcoOs
