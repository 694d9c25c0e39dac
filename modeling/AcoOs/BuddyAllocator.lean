/-
The buddy allocator: `bkp_alloc`, `bkp_free` and `buddy_module_init`.

Every lock-protected critical section of the C code is one definition here
(`bkpAllocTake`, `bkpAllocCarve`, `bkpFreeEntry`, `bkpFreeMerge`,
`bkpFreeInsert`), and the sequential functions `bkpAlloc` and `bkpFree` are the
loops of the source around them.  The machines that interleave CPUs reuse the
same sections.

The result type is `Option`: `none` says that an `ASSERT` fails, where the
kernel stops.  A `struct list_head` ring is modelled by the list of the page ids
linked in it, in order.
-/
import AcoOs.PageFrame

namespace AcoOs

/-- `mempool_alloctor_t`, the pool of one order. -/
structure Mempool where
  restBlockNum : ℤ
  blockSize : ℤ
  list : List ℕ

/-- The page descriptors and `GLOBAL_BUDDY_ALOCTR`. -/
structure Buddy where
  pages : ℕ → Pageframe
  orderPools : ℕ → Mempool

namespace Buddy

/-- Overwrite the descriptor of one page. -/
def setPage (s : Buddy) (p : ℕ) (pg : Pageframe) : Buddy :=
  { s with pages := Function.update s.pages p pg }

/-- Overwrite one pool. -/
def setPool (s : Buddy) (k : ℕ) (m : Mempool) : Buddy :=
  { s with orderPools := Function.update s.orderPools k m }

@[simp] theorem setPage_orderPools (s : Buddy) (p : ℕ) (pg : Pageframe) :
    (s.setPage p pg).orderPools = s.orderPools := rfl

@[simp] theorem setPool_pages (s : Buddy) (k : ℕ) (m : Mempool) :
    (s.setPool k m).pages = s.pages := rfl

@[simp] theorem setPage_pages (s : Buddy) (p : ℕ) (pg : Pageframe) (q : ℕ) :
    (s.setPage p pg).pages q = if q = p then pg else s.pages q := by
  simp [setPage, Function.update_apply]

@[simp] theorem setPool_orderPools (s : Buddy) (k : ℕ) (m : Mempool) (j : ℕ) :
    (s.setPool k m).orderPools j = if j = k then m else s.orderPools j := by
  simp [setPool, Function.update_apply]

end Buddy

/-- `list_del` on the node of page `p`, linked in the pool of order `k`, with the
decrement of `rest_block_num` next to it. -/
def Mempool.unlink (m : Mempool) (p : ℕ) : Mempool :=
  { m with restBlockNum := m.restBlockNum - 1, list := m.list.erase p }

/-- `list_add_tail` with the increment of `rest_block_num` next to it. -/
def Mempool.addTail (m : Mempool) (p : ℕ) : Mempool :=
  { m with restBlockNum := m.restBlockNum + 1, list := m.list ++ [p] }

@[simp] theorem Mempool.unlink_list (m : Mempool) (p : ℕ) :
    (m.unlink p).list = m.list.erase p := rfl

@[simp] theorem Mempool.addTail_list (m : Mempool) (p : ℕ) :
    (m.addTail p).list = m.list ++ [p] := rfl

theorem Mempool.unlink_count {m : Mempool} {p : ℕ} (h : m.restBlockNum = m.list.length)
    (hp : p ∈ m.list) : (m.unlink p).restBlockNum = (m.unlink p).list.length := by
  have hlen := List.length_erase_of_mem hp
  have hpos := List.length_pos_of_mem hp
  simp only [Mempool.unlink, h, hlen]
  omega

theorem Mempool.addTail_count {m : Mempool} {p : ℕ} (h : m.restBlockNum = m.list.length) :
    (m.addTail p).restBlockNum = (m.addTail p).list.length := by
  simp [Mempool.addTail, h]

variable (c : Layout)

/-! ### `bkp_free` -/

/-- The first section of `bkp_free`: check the block and read its order. -/
def bkpFreeEntry (s : Buddy) (pgfm : ℕ) : Option ℕ :=
  if c.pgValid pgfm ∧ (s.pages pgfm).pgtype = .buddyAllocator ∧ (s.pages pgfm).Freeable ∧
      (s.pages pgfm).buddyOrder < c.maxOrder then
    some (s.pages pgfm).buddyOrder
  else none

/-- The test both neighbours of a block go through. -/
def Pageframe.Mergeable (pg : Pageframe) (order : ℕ) : Prop :=
  pg.pgtype = .buddyAllocator ∧ pg.buddyOrder = order ∧ pg.buddyFlags &&& flagHead ≠ 0 ∧
    pg.buddyFlags &&& flagBody = 0 ∧ pg.buddyFlags &&& flagFree ≠ 0

instance (pg : Pageframe) (order : ℕ) : Decidable (pg.Mergeable order) :=
  inferInstanceAs (Decidable (_ ∧ _))

/-- Join the adjacent blocks `lo` and `hi` of one order into the block `lo` of the
next order; `linked` is the one of the two that is taken out of the pool. -/
def joinBlocks (s : Buddy) (order lo hi linked : ℕ) : Buddy :=
  ((s.setPool order ((s.orderPools order).unlink linked)).setPage hi
    { s.pages hi with buddyOrder := c.maxOrder, buddyFlags := flagBody }).setPage lo
    { s.pages lo with buddyOrder := (s.pages lo).buddyOrder + 1, buddyFlags := flagHead }

/-- One iteration of the merge loop of `bkp_free`: `some q` when the block was
merged and `q` is the head of the block one order up, `none` for `break`. -/
def bkpFreeMerge (s : Buddy) (pgfm order : ℕ) : Option (Option ℕ × Buddy) :=
  if (s.pages pgfm).pgtype = .buddyAllocator ∧ (s.pages pgfm).buddyOrder = order ∧
      (s.pages pgfm).buddyFlags = flagHead then
    let bef := c.va2pg (c.befPgva pgfm order)
    let aft := c.va2pg (c.aftPgva pgfm order)
    -- the block before it is tried first
    if c.vaValid (c.befPgva pgfm order) ∧ (s.pages bef).Mergeable order then
      some (some bef, joinBlocks c s order bef pgfm bef)
    else if c.vaValid (c.aftPgva pgfm order) ∧ (s.pages aft).Mergeable order then
      some (some pgfm, joinBlocks c s order pgfm aft aft)
    else some (none, s)
  else none

/-- The last section of `bkp_free`: flag the block and link it in its pool. -/
def bkpFreeInsert (s : Buddy) (pgfm order : ℕ) : Option Buddy :=
  let flags := (s.pages pgfm).buddyFlags ||| flagFree
  if (s.pages pgfm).pgtype = .buddyAllocator ∧ flags &&& flagFree ≠ 0 ∧
      flags &&& flagHead ≠ 0 ∧ flags &&& flagBody = 0 ∧ flags &&& flagStatic = 0 then
    some ((s.setPage pgfm { s.pages pgfm with buddyFlags := flags }).setPool order
      ((s.orderPools order).addTail pgfm))
  else none

/-- `while(order < MAX_ORDER -1)`: at most `n` more iterations are left. -/
def bkpFreeLoop : ℕ → Buddy → ℕ → ℕ → Option (ℕ × ℕ × Buddy)
  | 0, s, pgfm, order => some (pgfm, order, s)
  | n + 1, s, pgfm, order =>
    match bkpFreeMerge c s pgfm order with
    | none => none
    | some (none, s') => some (pgfm, order, s')
    | some (some q, s') => bkpFreeLoop n s' q (order + 1)

/-- `bkp_free` on a block that is not `NULL`. -/
def bkpFree (s : Buddy) (pgfm : ℕ) : Option Buddy :=
  match bkpFreeEntry c s pgfm with
  | none => none
  | some order =>
    match bkpFreeLoop c (c.maxOrder - 1 - order) s pgfm order with
    | none => none
    | some (pgfm, order, s) => bkpFreeInsert s pgfm order

/-! ### `bkp_alloc` -/

/-- The section of `bkp_alloc` under one pool lock: `none` when the pool is empty,
else the first block of the pool, cut to the requested order. -/
def bkpAllocTake (s : Buddy) (order orderOrig : ℕ) : Option (Option ℕ × Buddy) :=
  if (s.orderPools order).restBlockNum = 0 then some (none, s)
  else
    match (s.orderPools order).list with
    -- behind the head of an empty ring there is no page
    | [] => none
    | pagePtr :: _ =>
      if (s.pages pagePtr).buddyFlags = flagHead ||| flagFree ∧
          (s.pages pagePtr).buddyOrder = order then
        some (some pagePtr, (s.setPool order ((s.orderPools order).unlink pagePtr)).setPage
          pagePtr { s.pages pagePtr with buddyFlags := flagHead, buddyOrder := orderOrig })
      else none

/-- The section of `bkp_alloc` that makes a piece of the remainder a block. -/
def bkpAllocCarve (s : Buddy) (restPgst i : ℕ) : Option Buddy :=
  if (s.pages restPgst).buddyFlags = flagBody ∧ (s.pages restPgst).buddyOrder = c.maxOrder then
    some (s.setPage restPgst
      { s.pages restPgst with buddyOrder := i, buddyFlags := flagHead })
  else none

/-- `for(int i=MAX_ORDER-1;i>=0;i--)`, from `i` counted down. -/
def bkpAllocSplit : ℕ → Buddy → ℕ → ℕ → Option Buddy
  | 0, s, _, _ => some s
  | i + 1, s, restPgst, restPgnum =>
    if restPgnum = 0 then some s
    -- the next piece has order `i` and begins where the last one ended
    else if restPgnum &&& (1 <<< i) ≠ 0 then
      match bkpAllocCarve c s restPgst i with
      | none => none
      | some s =>
        match bkpFree c s restPgst with
        | none => none
        | some s => bkpAllocSplit i s (restPgst + 1 <<< i) (restPgnum - 1 <<< i)
    else bkpAllocSplit i s restPgst restPgnum

/-- `while(order < MAX_ORDER)`: at most `n` more orders are left. -/
def bkpAllocLoop (orderOrig : ℕ) : ℕ → Buddy → ℕ → Option (Option ℕ × Buddy)
  | 0, s, _ => some (none, s)
  | n + 1, s, order =>
    match bkpAllocTake s order orderOrig with
    | none => none
    | some (none, s) => bkpAllocLoop orderOrig n s (order + 1)
    | some (some pagePtr, s) =>
      -- the pages behind the block go back, cut into blocks
      match bkpAllocSplit c c.maxOrder s (pagePtr + Layout.order2pgnum orderOrig)
          (Layout.order2pgnum order - Layout.order2pgnum orderOrig) with
      | none => none
      | some s => some (some pagePtr, s)

/-- `bkp_alloc`; the returned block is `none` for `NULL`. -/
def bkpAlloc (s : Buddy) (orderOrig : ℤ) : Option (Option ℕ × Buddy) :=
  if ¬ (0 ≤ orderOrig ∧ orderOrig < c.maxOrder) then some (none, s)
  else bkpAllocLoop c orderOrig.toNat (c.maxOrder - orderOrig.toNat) s orderOrig.toNat

/-! ### Boot and self check -/

/-- The value an `int` gets from a `size_t`. -/
def toInt32 (x : ℕ) : ℤ := Int.bmod x (2 ^ 32)

theorem toInt32_of_lt {n : ℕ} (h : n < 2 ^ 31) : toInt32 n = n := by
  unfold toInt32
  exact Int.bmod_eq_of_le (by omega) (by omega)

/-- The pools as the first loop of `buddy_module_init` leaves them. -/
def initPools (order : ℕ) : Mempool :=
  { restBlockNum := 0, blockSize := toInt32 (Layout.order2byte order), list := [] }

/-- `for(int i =0;i<PGFRAME_PAGE_NUMS;i++)`: free every page that is a block. -/
def initFree : ℕ → Buddy → Option Buddy
  | 0, s => some s
  | i + 1, s =>
    match initFree i s with
    | none => none
    | some s => if (s.pages i).Freeable then bkpFree c s i else some s

/-- `buddy_module_init` on the page array that `pgfm_module_init` set up. -/
def buddyModuleInit (pages : ℕ → Pageframe) : Option Buddy :=
  initFree c c.pageNums { pages := pages, orderPools := initPools }

/-- `EFAULT`. -/
def efault : ℤ := 14

/-- The check `buddy_slfcheck` makes of one pool. -/
def poolCheck (s : Buddy) (i : ℕ) : Bool :=
  -- `block_size` is an `int`, the right-hand side an `unsigned long`
  (s.orderPools i).blockSize % 2 ^ 64 = (1 <<< i * pageSize : ℕ) % 2 ^ 64 ∧
    (s.orderPools i).restBlockNum = (s.orderPools i).list.length ∧
    ∀ pg ∈ (s.orderPools i).list, (s.pages pg).buddyOrder = i

/-- `buddy_slfcheck`. -/
def buddySlfcheck (s : Buddy) : ℤ :=
  if ∀ i < c.maxOrder, poolCheck s i then 0 else -efault

end AcoOs
