/-
The slab allocator: `kmem_cache_init`, `kmem_cache_deinit`, `kmem_obj_alloc` and `kmem_obj_free`.

A slab is a block of pages with a `slab_t` at its start, an array of `int`s behind it and
the objects at the end.  The array threads the free objects; it is modelled as a function
from indices, and the slab of a page as a record beside the page descriptors, since the
objects that are handed out lie behind it.  Addresses are natural numbers.

The result type is `Option`: `none` says that an `ASSERT` fails, where the kernel stops.
`int` arithmetic is explicit where the code can leave the range of an `int`.
-/
import AcoOs.PageAllocator

namespace AcoOs

/-- The value arithmetic on `int`s leaves. -/
def int32 (x : ℤ) : ℤ := Int.bmod x (2 ^ 32)

/-- `ENOMEM`. -/
def enomem : ℤ := 12

/-! ### `SDBMHash` -/

/-- The loop of `SDBMHash`, with `n` iterations left: `str` has moved `i` bytes, so
`str[i]` is byte `2 * i`. -/
def sdbmLoop (str : ℕ → BitVec 8) : ℕ → ℕ → BitVec 32 → BitVec 32
  | 0, _, hash => hash
  | n + 1, i, hash =>
    if str (2 * i) ≠ 0 then
      sdbmLoop str n (i + 1) ((str i).setWidth 32 + hash <<< 6 + hash <<< 16 - hash)
    else hash

/-- `SDBMHash`. -/
def sdbmHash (str : ℕ → BitVec 8) (size : ℕ) : BitVec 32 := sdbmLoop str size 0 0 &&& 0x7FFFFFFF#32

/-- The bytes from the address of the parameter `offset` on: its own four, then whatever
the stack holds, which `SDBMHash` reads too. -/
def offsetBytes (offset : ℤ) (stack : ℕ → BitVec 8) (i : ℕ) : BitVec 8 :=
  if i < 4 then BitVec.ofInt 8 (offset / 2 ^ (8 * i)) else stack i

/-! ### One slab -/

/-- `slab_t`; `memIndexStart` is the array the pointer points to. -/
structure Slab where
  objAll : ℤ
  objFree : ℤ
  objSize : ℤ
  memFreeHead : ℤ
  memFreeTail : ℤ
  memIndexStart : ℕ → ℤ
  memObjStart : ℕ

/-- `sizeof(slab_t)`: five `int`s and two pointers. -/
def sizeofSlab : ℕ := 40

/-- `init_slab_xip`; the outer `none` is a failed `ASSERT`, the inner one is `NULL`. -/
def initSlabXip (start : ℕ) (size objSize offset : ℤ) (stack : ℕ → BitVec 8) :
    Option (Option Slab) :=
  if start ≠ 0 ∧ 0 < size ∧ 0 < objSize ∧ objSize < size ∧ start % pageSize = 0 then
    -- `sizeof` makes both sides of the division `unsigned long`
    let bytes := (size.toNat + (2 ^ 64 - sizeofSlab)) % 2 ^ 64
    let objNum := toInt32 (bytes / (4 + objSize.toNat))
    let padding := toInt32 (bytes % (4 + objSize.toNat))
    let offset :=
      if padding ≠ 0 then
        let hash := toInt32 (sdbmHash (offsetBytes offset stack) 4).toNat
        -- `&= ~0b11`
        hash.tmod padding - hash.tmod padding % 4
      else 0
    if 0 ≤ offset then
      if objNum ≤ 0 then some none
      else some (some
        { objAll := objNum, objFree := objNum, objSize := objSize
          memFreeHead := 0, memFreeTail := objNum - 1
          memIndexStart := fun i => if (i : ℤ) ≠ objNum - 1 then i + 1 else i
          memObjStart := start + sizeofSlab + 4 * objNum.toNat + offset.toNat })
    else none
  else none

/-- `slab_alloc`; the inner `none` is `NULL`. -/
def slabAlloc (s : Slab) : Option (Option ℕ × Slab) :=
  if s.objFree = 0 then some (none, s)
  else if s.memFreeHead = -1 then none
  else
    let index := s.memFreeHead.toNat
    let s' := { s with
      memFreeHead := s.memIndexStart index
      memIndexStart := Function.update s.memIndexStart index (-1)
      objFree := s.objFree - 1 }
    some (some (s.memObjStart + s.objSize.toNat * index),
      if s'.objFree = 0 then { s' with memFreeHead := -1, memFreeTail := -1 } else s')

/-- `slab_free`. -/
def slabFree (s : Slab) (address : ℕ) : Option Slab :=
  if address ≠ 0 ∧ s.memObjStart ≤ address ∧
      address < s.memObjStart + s.objAll.toNat * s.objSize.toNat then
    let index := address - s.memObjStart
    if index % s.objSize.toNat = 0 then
      let index := index / s.objSize.toNat
      if s.memIndexStart index = -1 then
        if s.objFree = 0 then
          if s.memFreeHead = -1 ∧ s.memFreeTail = -1 then
            some { s with
              memFreeHead := index, memFreeTail := index
              memIndexStart := Function.update s.memIndexStart index index
              objFree := s.objFree + 1 }
          else none
        else if s.memFreeHead ≠ -1 ∧ s.memFreeTail ≠ -1 then
          some { s with
            memIndexStart := Function.update
              (Function.update s.memIndexStart s.memFreeTail.toNat index) index index
            memFreeTail := index
            objFree := s.objFree + 1 }
        else none
      else none
    else none
  else none

/-! ### The descriptor of the first page -/

/-- `set_pgfm_aslab`. -/
def setPgfmAslab (pg : Pageframe) : Option Pageframe :=
  if pg.pgtype = .buddyAllocator ∧ pg.buddyFlags = flagHead then
    some { pg with pgtype := .slabAllocator }
  else none

/-- `set_pgfm_asbuddy`. -/
def setPgfmAsbuddy (pg : Pageframe) : Option Pageframe :=
  if pg.pgtype = .slabAllocator ∧ pg.buddyFlags = flagHead then
    some { pg with pgtype := .buddyAllocator }
  else none

/-- `(1<<order)*PAGE_SIZE`, an `unsigned long`. -/
def orderBytes (order : ℕ) : ℕ := 2 ^ order * pageSize

/-- `init_slab`; the size goes through the `int` parameter of `init_slab_xip`. -/
def initSlab (pg : Pageframe) (va : ℕ) (objSize offset : ℤ) (stack : ℕ → BitVec 8) :
    Option (Option Slab) :=
  if pg.pgtype = .slabAllocator ∧ pg.buddyFlags = flagHead then
    initSlabXip va (toInt32 (orderBytes pg.buddyOrder)) objSize offset stack
  else none

/-! ### A cache -/

/-- `kmem_cache_t`; the lists hold the pages whose `buddy_node` is linked in them. -/
structure KmemCache where
  objNum : ℤ
  objSize : ℤ
  pgOrder : ℤ
  pgOrlimit : ℤ
  pgOrhas : ℤ
  colorOffset : ℤ
  free : List ℕ
  full : List ℕ
  partialSlabs : List ℕ

variable {c : Layout}

/-- A cache, the slabs and page descriptors it works on, and the page allocator. -/
structure Kmem (A : PageAllocator c) where
  buddy : A.State
  pages : ℕ → Pageframe
  slabs : ℕ → Slab
  cache : KmemCache

/-- The parameters of `kmem_cache_init`, with the address of the cache. -/
structure KmemArgs where
  kmmCache : ℕ
  objSize : ℤ
  pgOrder : ℤ
  pgorLimit : ℤ
  initPgorAlloc : ℤ

namespace Kmem

variable {A : PageAllocator c}

/-- `bkp_free` of a block, which reads the descriptor of its head. -/
def release (x : Kmem A) (p : ℕ) : Option (Kmem A) :=
  if (x.pages p).pgtype = .buddyAllocator ∧ (x.pages p).Freeable then
    match A.free x.buddy p with
    | none => none
    | some b => some { x with buddy := b }
  else none

/-- Set up one more slab, as `kmem_cache_init` and `kmem_obj_alloc` both do: `true` when
there is one. -/
def grow (x : Kmem A) (stack : ℕ → BitVec 8) : Option (Bool × Kmem A) :=
  match A.alloc x.buddy x.cache.pgOrder with
  | (none, b) => some (false, { x with buddy := b })
  | (some p, b) =>
    match setPgfmAslab (.handed x.cache.pgOrder.toNat) with
    | none => none
    | some pg =>
      match initSlab pg (c.pg2va p) x.cache.objSize x.cache.colorOffset stack with
      | none => none
      | some none =>
        match setPgfmAsbuddy pg with
        | none => none
        | some pg =>
          match release { x with buddy := b, pages := Function.update x.pages p pg } p with
          | none => none
          | some x => some (false, x)
      | some (some s) =>
        if s.objAll = s.objFree then
          some (true, { x with
            buddy := b
            pages := Function.update x.pages p pg
            slabs := Function.update x.slabs p s
            cache := { x.cache with
              colorOffset := (x.cache.colorOffset + 1) % 2 ^ 31
              objNum := int32 (x.cache.objNum + s.objFree)
              pgOrhas := x.cache.pgOrhas + 1
              free := x.cache.free ++ [p] } })
        else none

/-- The loop of `kmem_cache_init`: `false` when it jumps to `free_kmm_cache`. -/
def initLoop (x : Kmem A) (stack : ℕ → ℕ → BitVec 8) : ℕ → Option (Bool × Kmem A)
  | 0 => some (true, x)
  | n + 1 =>
    match initLoop x stack n with
    | none => none
    | some (false, x) => some (false, x)
    | some (true, x) => x.grow (stack n)

/-- `free_kmm_cache`: give the blocks of the listed slabs back. -/
def freeSlabs (x : Kmem A) : List ℕ → Option (Kmem A)
  | [] => some x
  | p :: ps =>
    if (x.pages p).buddyFlags = flagHead then
      match release { x with
          pages := Function.update x.pages p { x.pages p with pgtype := .buddyAllocator }
          cache := { x.cache with free := x.cache.free.erase p } } p with
      | none => none
      | some x => freeSlabs x ps
    else none

/-- `kmem_cache_init`. -/
def kmemCacheInit (x : Kmem A) (a : KmemArgs) (stack : ℕ → ℕ → BitVec 8) :
    Option (ℤ × Kmem A) :=
  if a.kmmCache = 0 ∨ a.objSize ≤ 0 ∨ ¬ (0 ≤ a.pgOrder ∧ a.pgOrder < c.maxOrder) ∨
      a.pgorLimit ≤ 0 ∨ a.initPgorAlloc < 0 ∨ a.pgorLimit < a.initPgorAlloc ∨
      orderBytes a.pgOrder.toNat ≤ a.objSize then
    some (-efault, x)
  else
    match initLoop { x with cache :=
        { objNum := 0, objSize := a.objSize, pgOrder := a.pgOrder, pgOrlimit := a.pgorLimit
          pgOrhas := 0, colorOffset := a.kmmCache % 2 ^ 31
          free := [], full := [], partialSlabs := [] } } stack a.initPgorAlloc.toNat with
    | none => none
    | some (true, x) => some (0, x)
    | some (false, x) =>
      match freeSlabs x x.cache.free with
      | none => none
      | some x => some (-enomem, x)

/-- `kmem_cache_deinit`. -/
def kmemCacheDeinit (x : Kmem A) : Option (Kmem A) :=
  if x.cache.full = [] ∧ x.cache.partialSlabs = [] then
    match x.freeSlabs x.cache.free with
    | none => none
    -- `sizeof(kmm_cache)` is that of the pointer: the lock and `obj_num`
    | some x => some { x with cache := { x.cache with objNum := 0 } }
  else none

/-- The end of `kmem_obj_alloc`: take an object from a partial slab, else a free one. -/
def take (x : Kmem A) : Option (Option ℕ × Kmem A) :=
  match x.cache.partialSlabs with
  | p :: _ =>
    match slabAlloc (x.slabs p) with
    | some (some ret, s) =>
      some (some ret, { x with
        slabs := Function.update x.slabs p s
        cache := if s.objFree = 0 then
            { x.cache with
              partialSlabs := x.cache.partialSlabs.erase p, full := x.cache.full ++ [p]
              objNum := int32 (x.cache.objNum - 1) }
          else { x.cache with objNum := int32 (x.cache.objNum - 1) } })
    | _ => none
  | [] =>
    match x.cache.free with
    -- behind the head of an empty list there is no page
    | [] => none
    | p :: _ =>
      match slabAlloc (x.slabs p) with
      | some (some ret, s) =>
        some (some ret, { x with
          slabs := Function.update x.slabs p s
          cache := if s.objFree = 0 then
              { x.cache with
                free := x.cache.free.erase p, full := x.cache.full ++ [p]
                objNum := int32 (x.cache.objNum - 1) }
            else
              { x.cache with
                free := x.cache.free.erase p, partialSlabs := x.cache.partialSlabs ++ [p]
                objNum := int32 (x.cache.objNum - 1) } })
      | _ => none

/-- `kmem_obj_alloc`. -/
def kmemObjAlloc (x : Kmem A) (stack : ℕ → BitVec 8) : Option (Option ℕ × Kmem A) :=
  if x.cache.objNum = 0 then
    if x.cache.pgOrlimit ≤ x.cache.pgOrhas then some (none, x)
    else
      match x.grow stack with
      | none => none
      | some (false, x) => some (none, x)
      | some (true, x) => x.take
  else x.take

/-- The test of `kmem_obj_free`, with the size of a slab as the `int` it is. -/
def Covers (x : Kmem A) (address p : ℕ) : Prop :=
  c.pg2va p < address ∧
    (address : ℤ) < (c.pg2va p + toInt32 (orderBytes x.cache.pgOrder.toNat)) % 2 ^ 64

instance (x : Kmem A) (address p : ℕ) : Decidable (x.Covers address p) :=
  inferInstanceAs (Decidable (_ ∧ _))

/-- The two loops of `kmem_obj_free`: the first slab of the list the address lies in.
`ok` is what each loop asserts of a slab before. -/
def scan (x : Kmem A) (ok : Slab → Bool) (address : ℕ) : List ℕ → Option (Option ℕ)
  | [] => some none
  | p :: ps =>
    if (x.pages p).pgtype = .slabAllocator ∧ (x.pages p).buddyFlags = flagHead ∧
        ok (x.slabs p) then
      if x.Covers address p then some (some p) else scan x ok address ps
    else none

/-- `kmem_obj_free`. -/
def kmemObjFree (x : Kmem A) (address : ℕ) : Option (Kmem A) :=
  if address = 0 then some x
  else
    match x.scan (fun s => s.objFree < s.objAll) address x.cache.partialSlabs with
    | none => none
    | some (some p) =>
      match slabFree (x.slabs p) address with
      | none => none
      | some s => some { x with
          slabs := Function.update x.slabs p s
          cache := if s.objFree = s.objAll then
              { x.cache with
                partialSlabs := x.cache.partialSlabs.erase p, free := x.cache.free ++ [p]
                objNum := int32 (x.cache.objNum + 1) }
            else { x.cache with objNum := int32 (x.cache.objNum + 1) } }
    | some none =>
      match x.scan (fun s => s.objFree = 0) address x.cache.full with
      | none => none
      | some none => some x
      | some (some p) =>
        match slabFree (x.slabs p) address with
        | none => none
        | some s => some { x with
            slabs := Function.update x.slabs p s
            cache := if s.objFree = s.objAll then
                { x.cache with
                  full := x.cache.full.erase p, free := x.cache.free ++ [p]
                  objNum := int32 (x.cache.objNum + 1) }
              else
                { x.cache with
                  full := x.cache.full.erase p, partialSlabs := x.cache.partialSlabs ++ [p]
                  objNum := int32 (x.cache.objNum + 1) } }

end Kmem

end AcoOs
