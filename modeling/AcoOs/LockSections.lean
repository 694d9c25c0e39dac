/-
The locks that the allocators take.

Beside each function of the buddy allocator and of the slab allocator stands the sequence of lock
operations of a call that returns.  They are critical sections of pools, pages and caches only, so
a caller finds its own locks and its nesting depth as they were (`Neutral`).

`LockedAllocator` and `LockedEnv` are allocators together with these sequences.
-/
import AcoOs.LockTrace
import AcoOs.SlabAllocator
import AcoOs.VmaArea

namespace AcoOs

/-! ### The buddy allocator -/

section Buddy

variable (c : Layout)

/-- One iteration of the merge loop of `bkp_free`. -/
def bkpFreeMergeOps (s : Buddy) (pgfm order : ℕ) : List LockOp :=
  let bef := c.va2pg (c.befPgva pgfm order)
  let aft := c.va2pg (c.aftPgva pgfm order)
  locked (.pool order) (locked (.page pgfm) (
    (if c.vaValid (c.befPgva pgfm order) then locked (.page bef) [] else []) ++
    -- a block that was merged with the one before does not look behind
    (if c.vaValid (c.befPgva pgfm order) ∧ (s.pages bef).Mergeable order then []
      else if c.vaValid (c.aftPgva pgfm order) then locked (.page aft) [] else [])))

/-- The merge loop of `bkp_free`. -/
def bkpFreeLoopOps : ℕ → Buddy → ℕ → ℕ → List LockOp
  | 0, _, _, _ => []
  | n + 1, s, pgfm, order => bkpFreeMergeOps c s pgfm order ++
    match bkpFreeMerge c s pgfm order with
    | some (some q, s') => bkpFreeLoopOps n s' q (order + 1)
    | _ => []

/-- `bkp_free`. -/
def bkpFreeOps (s : Buddy) (pgfm : ℕ) : List LockOp :=
  locked (.page pgfm) [] ++
  match bkpFreeEntry c s pgfm with
  | none => []
  | some order => bkpFreeLoopOps c (c.maxOrder - 1 - order) s pgfm order ++
    match bkpFreeLoop c (c.maxOrder - 1 - order) s pgfm order with
    | none => []
    | some (pgfm, order, _) => locked (.pool order) (locked (.page pgfm) [])

/-- The section of `bkp_alloc` under one pool lock. -/
def bkpAllocTakeOps (s : Buddy) (order : ℕ) : List LockOp :=
  locked (.pool order) (
    if (s.orderPools order).restBlockNum = 0 then []
    else
      match (s.orderPools order).list with
      | [] => []
      | pagePtr :: _ => locked (.page pagePtr) [])

/-- The loop of `bkp_alloc` over the remainder. -/
def bkpAllocSplitOps : ℕ → Buddy → ℕ → ℕ → List LockOp
  | 0, _, _, _ => []
  | i + 1, s, restPgst, restPgnum =>
    if restPgnum = 0 then []
    else if restPgnum &&& (1 <<< i) ≠ 0 then
      locked (.page restPgst) [] ++
      match bkpAllocCarve c s restPgst i with
      | none => []
      | some s => bkpFreeOps c s restPgst ++
        match bkpFree c s restPgst with
        | none => []
        | some s => bkpAllocSplitOps i s (restPgst + 1 <<< i) (restPgnum - 1 <<< i)
    else bkpAllocSplitOps i s restPgst restPgnum

/-- The loop of `bkp_alloc` over the orders. -/
def bkpAllocLoopOps (orderOrig : ℕ) : ℕ → Buddy → ℕ → List LockOp
  | 0, _, _ => []
  | n + 1, s, order => bkpAllocTakeOps s order ++
    match bkpAllocTake s order orderOrig with
    | none => []
    | some (none, s) => bkpAllocLoopOps orderOrig n s (order + 1)
    | some (some pagePtr, s) =>
      bkpAllocSplitOps c c.maxOrder s (pagePtr + Layout.order2pgnum orderOrig)
        (Layout.order2pgnum order - Layout.order2pgnum orderOrig)

/-- `bkp_alloc`. -/
def bkpAllocOps (s : Buddy) (orderOrig : ℤ) : List LockOp :=
  if ¬ (0 ≤ orderOrig ∧ orderOrig < c.maxOrder) then []
  else bkpAllocLoopOps c orderOrig.toNat (c.maxOrder - orderOrig.toNat) s orderOrig.toNat

variable {c}

theorem bkpFreeMergeOps_neutral (s : Buddy) (pgfm order : ℕ) :
    Neutral (bkpFreeMergeOps c s pgfm order) := by
  refine .locked (.locked (.append (.ite (.critical _) .nil) (.ite .nil ?_)) _) _
  exact .ite (.critical _) .nil

theorem bkpFreeLoopOps_neutral (n : ℕ) (s : Buddy) (pgfm order : ℕ) :
    Neutral (bkpFreeLoopOps c n s pgfm order) := by
  induction n generalizing s pgfm order with
  | zero => exact .nil
  | succ n ih =>
    unfold bkpFreeLoopOps
    refine .append (bkpFreeMergeOps_neutral s pgfm order) ?_
    split
    · exact ih ..
    · exact .nil

theorem bkpFreeOps_neutral (s : Buddy) (pgfm : ℕ) : Neutral (bkpFreeOps c s pgfm) := by
  unfold bkpFreeOps
  refine .append (.critical _) ?_
  split
  · exact .nil
  · refine .append (bkpFreeLoopOps_neutral ..) ?_
    split
    · exact .nil
    · exact .locked (.critical _) _

theorem bkpAllocSplitOps_neutral (n : ℕ) (s : Buddy) (restPgst restPgnum : ℕ) :
    Neutral (bkpAllocSplitOps c n s restPgst restPgnum) := by
  induction n generalizing s restPgst restPgnum with
  | zero => exact .nil
  | succ i ih =>
    unfold bkpAllocSplitOps
    refine .ite .nil (.ite (.append (.critical _) ?_) (ih ..))
    split
    · exact .nil
    · refine .append (bkpFreeOps_neutral ..) ?_
      split
      · exact .nil
      · exact ih ..

theorem bkpAllocLoopOps_neutral (orderOrig n : ℕ) (s : Buddy) (order : ℕ) :
    Neutral (bkpAllocLoopOps c orderOrig n s order) := by
  induction n generalizing s order with
  | zero => exact .nil
  | succ n ih =>
    unfold bkpAllocLoopOps
    have htake : Neutral (bkpAllocTakeOps s order) := by
      refine .locked (.ite .nil ?_) _
      split
      · exact .nil
      · exact .critical _
    refine .append htake ?_
    split
    · exact .nil
    · exact ih ..
    · exact bkpAllocSplitOps_neutral ..

theorem bkpAllocOps_neutral (s : Buddy) (orderOrig : ℤ) : Neutral (bkpAllocOps c s orderOrig) :=
  .ite .nil (bkpAllocLoopOps_neutral ..)

end Buddy

/-- A page allocator with the lock operations of its calls. -/
structure LockedAllocator {c : Layout} (A : PageAllocator c) where
  allocOps : A.State → ℤ → List LockOp
  freeOps : A.State → ℕ → List LockOp
  alloc_neutral : ∀ s k, Neutral (allocOps s k)
  free_neutral : ∀ s p, Neutral (freeOps s p)

/-- The buddy allocator. -/
def buddyLocked {c : Layout} (R : FreeRange c) (h0 : 0 < c.vaStart) :
    LockedAllocator (buddyAllocator c R h0) where
  allocOps s k := bkpAllocOps c s.1.buddy k
  freeOps s p := bkpFreeOps c s.1.buddy p
  alloc_neutral _ _ := bkpAllocOps_neutral ..
  free_neutral _ _ := bkpFreeOps_neutral ..

/-! ### The slab allocator -/

namespace Kmem

variable {c : Layout} {A : PageAllocator c} (E : LockedAllocator A)

/-- One more slab in `kmem_obj_alloc`. -/
def growOps (x : Kmem A) (stack : ℕ → BitVec 8) : List LockOp :=
  E.allocOps x.buddy x.cache.pgOrder ++
  match A.alloc x.buddy x.cache.pgOrder with
  | (none, _) => []
  | (some p, b) =>
    -- `set_pgfm_aslab` and `init_slab`
    locked (.page p) [] ++ locked (.page p) [] ++
    match setPgfmAslab (.handed x.cache.pgOrder.toNat) with
    | none => []
    | some pg =>
      match initSlab pg (c.pg2va p) x.cache.objSize x.cache.colorOffset stack with
      | none => []
      -- `set_pgfm_asbuddy` and `bkp_free`
      | some none => locked (.page p) [] ++ E.freeOps b p
      -- `list_add_tail`
      | some (some _) => locked (.page p) []

/-- The end of `kmem_obj_alloc`, up to the `unlock` of the cache. -/
def takeOps (x : Kmem A) : List LockOp :=
  match x.cache.partialSlabs with
  | p :: _ => locked (.page p) []
  | [] =>
    match x.cache.free with
    | [] => []
    | p :: _ => locked (.page p) []

/-- `kmem_obj_alloc` of the cache at an address. -/
def kmemObjAllocOps (x : Kmem A) (kmmCache : ℕ) (stack : ℕ → BitVec 8) : List LockOp :=
  locked (.cache kmmCache) (
    if x.cache.objNum = 0 then
      if x.cache.pgOrlimit ≤ x.cache.pgOrhas then []
      else x.growOps E stack ++
        match x.grow stack with
        | some (true, x) => x.takeOps
        | _ => []
    else x.takeOps)

/-- A loop of `kmem_obj_free`, up to the slab with the address. -/
def scanOps (x : Kmem A) (address : ℕ) : List ℕ → List LockOp
  | [] => []
  | p :: ps => locked (.page p) [] ++ if x.Covers address p then [] else scanOps x address ps

/-- `kmem_obj_free`. -/
def kmemObjFreeOps (x : Kmem A) (kmmCache address : ℕ) : List LockOp :=
  if address = 0 then []
  else
    locked (.cache kmmCache) (x.scanOps address x.cache.partialSlabs ++
      if x.cache.partialSlabs.any fun p => x.Covers address p then []
      else x.scanOps address x.cache.full)

variable {E}

theorem growOps_neutral (x : Kmem A) (stack : ℕ → BitVec 8) : Neutral (x.growOps E stack) := by
  unfold growOps
  refine .append (E.alloc_neutral ..) ?_
  split
  · exact .nil
  · refine .append (.append (.critical _) (.critical _)) ?_
    split
    · exact .nil
    · split
      · exact .nil
      · exact .append (.critical _) (E.free_neutral ..)
      · exact .critical _

theorem takeOps_neutral (x : Kmem A) : Neutral x.takeOps := by
  unfold takeOps
  split
  · exact .critical _
  · split
    · exact .nil
    · exact .critical _

/-- `kmem_obj_alloc` gives back every lock it takes. -/
theorem kmemObjAllocOps_neutral (x : Kmem A) (kmmCache : ℕ) (stack : ℕ → BitVec 8) :
    Neutral (x.kmemObjAllocOps E kmmCache stack) := by
  refine .locked (.ite (.ite .nil (.append (x.growOps_neutral stack) ?_)) x.takeOps_neutral) _
  split
  · exact takeOps_neutral _
  · exact .nil

theorem scanOps_neutral (x : Kmem A) (address : ℕ) (l : List ℕ) :
    Neutral (x.scanOps address l) := by
  induction l with
  | nil => exact .nil
  | cons p l ih => exact .append (.critical _) (.ite .nil ih)

/-- So does `kmem_obj_free`. -/
theorem kmemObjFreeOps_neutral (x : Kmem A) (kmmCache address : ℕ) :
    Neutral (x.kmemObjFreeOps kmmCache address) :=
  .ite .nil (.locked (.append (x.scanOps_neutral ..) (.ite .nil (x.scanOps_neutral ..))) _)

end Kmem

/-- What the address spaces take from elsewhere, with the lock operations of the calls. -/
structure LockedEnv {L : VmLayout} (A : VmEnv L) extends LockedAllocator A.toPageAllocator where
  objAllocOps : A.State → VmCache → List LockOp
  objFreeOps : A.State → VmCache → ℕ → List LockOp
  objAlloc_neutral : ∀ s k, Neutral (objAllocOps s k)
  objFree_neutral : ∀ s k a, Neutral (objFreeOps s k a)

end AcoOs
