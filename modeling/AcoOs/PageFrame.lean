/-
The page frame array and its address arithmetic.

`PAGES` is an array of descriptors, one for every page of one contiguous range
of memory; a `struct pageframe*` is modelled by its index in the array, a
virtual address by a natural number below `2 ^ 64`, and unsigned arithmetic is
taken modulo `2 ^ 64` as the C code does.

The two facts the allocator proofs use are `vaValid_bef` and `vaValid_aft`:
the wrapping subtraction and the addition by which `bkp_free` looks for its
neighbours name exactly the pages `p - 2 ^ k` and `p + 2 ^ k` that exist.
-/
import Mathlib

namespace AcoOs

/-- `CONFIG_PAGE_OFFSET`; the Sv39 macros of the RISC-V port fix the same value. -/
def pageOffset : ℕ := 12

/-- `PAGE_SIZE`. -/
def pageSize : ℕ := 2 ^ pageOffset

/-- The build-time constants and the layout that `pgfm_module_init` accepts.
`MAX_ORDER` is at most 31 because the code shifts an `int` by every order, page
ids are `int`, and the managed range does not wrap around the address space. -/
structure Layout where
  maxOrder : ℕ
  paStart : ℕ
  vaStart : ℕ
  pageNums : ℕ
  maxOrder_pos : 1 ≤ maxOrder
  maxOrder_le : maxOrder ≤ 31
  paStart_le : paStart ≤ vaStart
  paStart_aligned : paStart % pageSize = 0
  vaStart_aligned : vaStart % pageSize = 0
  pageNums_lt : pageNums < 2 ^ 31
  vaEnd_lt : vaStart + pageNums * pageSize < 2 ^ 64

namespace Layout

variable (c : Layout)

/-- `PGFRAME_VA_END`. -/
def vaEnd : ℕ := c.vaStart + c.pageNums * pageSize

/-- `va_valid`. -/
def vaValid (va : ℕ) : Prop := c.vaStart ≤ va ∧ va < c.vaEnd

instance (va : ℕ) : Decidable (c.vaValid va) :=
  inferInstanceAs (Decidable (_ ∧ _))

/-- `pg_valid`: the descriptor lies in the array. -/
def pgValid (pg : ℕ) : Prop := pg < c.pageNums

instance (pg : ℕ) : Decidable (c.pgValid pg) :=
  inferInstanceAs (Decidable (_ < _))

/-- `pg2va`. -/
def pg2va (pg : ℕ) : ℕ := (c.vaStart + pg * pageSize) % 2 ^ 64

/-- `va2pg`; the cast to `int` of the page id changes nothing on a valid address. -/
def va2pg (va : ℕ) : ℕ := (va + (2 ^ 64 - c.vaStart)) % 2 ^ 64 / pageSize

/-- `ORDER2PGNUM`. -/
def order2pgnum (order : ℕ) : ℕ := 2 ^ order

/-- `ORDER2BYTE`, a `size_t`. -/
def order2byte (order : ℕ) : ℕ := order2pgnum order * pageSize % 2 ^ 64

/-- `pg2va(pgfm) - ORDER2BYTE(order)`, as unsigned arithmetic has it. -/
def befPgva (pgfm order : ℕ) : ℕ := (c.pg2va pgfm + (2 ^ 64 - order2byte order)) % 2 ^ 64

/-- `pg2va(pgfm) + ORDER2BYTE(order)`. -/
def aftPgva (pgfm order : ℕ) : ℕ := (c.pg2va pgfm + order2byte order) % 2 ^ 64

end Layout

/-! ### Page descriptors -/

/-- `enum pgfm_type`: who a page belongs to. -/
inductive PgfmType
  | buddyAllocator
  | slabAllocator
  | vmaArea
  deriving DecidableEq, Repr

/-- `PG_BUDDY_FLAG_FREE`. -/
def flagFree : BitVec 8 := 1#8

/-- `PG_BUDDY_FLAG_HEAD`. -/
def flagHead : BitVec 8 := 2#8

/-- `PG_BUDDY_FLAG_BODY`. -/
def flagBody : BitVec 8 := 4#8

/-- `PG_BUDDY_FLAG_STATIC`. -/
def flagStatic : BitVec 8 := 8#8

/-- `struct pageframe`.  The links of `buddy_node` are modelled by the lists of
page ids that hold the page, the lock by the machines that interleave CPUs. -/
structure Pageframe where
  pgtype : PgfmType
  buddyFlags : BitVec 8
  buddyOrder : ℕ
  refCount : ℤ
  deriving DecidableEq, Repr

namespace Pageframe

/-- `buddy_pgfm_freeable`. -/
def Freeable (pg : Pageframe) : Prop := pg.buddyFlags = flagHead

/-- `buddy_pgfm_infrlist`. -/
def Infrlist (pg : Pageframe) : Prop := pg.buddyFlags = flagHead ||| flagFree

instance (pg : Pageframe) : Decidable pg.Freeable :=
  inferInstanceAs (Decidable (_ = _))

instance (pg : Pageframe) : Decidable pg.Infrlist :=
  inferInstanceAs (Decidable (_ = _))

end Pageframe

/-! ### The neighbour addresses -/

namespace Layout

variable {c : Layout}

theorem two_pow_le_of_lt_maxOrder {k : ℕ} (hk : k < c.maxOrder) : 2 ^ k ≤ 2 ^ 30 := by
  have := c.maxOrder_le
  exact Nat.pow_le_pow_right (by norm_num) (by omega)

theorem pg2va_of_valid {p : ℕ} (hp : p < c.pageNums) :
    c.pg2va p = c.vaStart + p * pageSize := by
  have := c.vaEnd_lt
  unfold pg2va
  simp only [pageSize, pageOffset] at *
  omega

theorem va2pg_add {p : ℕ} (hp : p < c.pageNums) :
    c.va2pg (c.vaStart + p * pageSize) = p := by
  have := c.vaEnd_lt
  unfold va2pg
  simp only [pageSize, pageOffset] at *
  omega

theorem order2byte_eq {k : ℕ} (hk : k < c.maxOrder) :
    order2byte k = 2 ^ k * pageSize := by
  have := two_pow_le_of_lt_maxOrder hk
  unfold order2byte order2pgnum
  simp only [pageSize, pageOffset] at *
  omega

/-- The address before a block is valid exactly when the page `2 ^ k` before it
exists: the subtraction may wrap, but never back into the managed range. -/
theorem vaValid_bef {p k : ℕ} (hp : p < c.pageNums) (hk : k < c.maxOrder) :
    c.vaValid (c.befPgva p k) ↔ 2 ^ k ≤ p := by
  have h1 := c.vaEnd_lt
  have h2 := c.pageNums_lt
  have h3 := two_pow_le_of_lt_maxOrder hk
  unfold vaValid befPgva vaEnd
  rw [pg2va_of_valid hp, order2byte_eq hk]
  simp only [pageSize, pageOffset] at *
  omega

theorem va2pg_bef {p k : ℕ} (hp : p < c.pageNums) (hk : k < c.maxOrder) (h : 2 ^ k ≤ p) :
    c.va2pg (c.befPgva p k) = p - 2 ^ k := by
  have h1 := c.vaEnd_lt
  have h2 : c.befPgva p k = c.vaStart + (p - 2 ^ k) * pageSize := by
    unfold befPgva
    rw [pg2va_of_valid hp, order2byte_eq hk]
    simp only [pageSize, pageOffset] at *
    omega
  rw [h2, va2pg_add (lt_of_le_of_lt (Nat.sub_le p _) hp)]

theorem vaValid_aft {p k : ℕ} (hp : p < c.pageNums) (hk : k < c.maxOrder) :
    c.vaValid (c.aftPgva p k) ↔ p + 2 ^ k < c.pageNums := by
  have h1 := c.vaEnd_lt
  have h2 := c.pageNums_lt
  have h3 := two_pow_le_of_lt_maxOrder hk
  unfold vaValid aftPgva vaEnd
  rw [pg2va_of_valid hp, order2byte_eq hk]
  simp only [pageSize, pageOffset] at *
  omega

theorem va2pg_aft {p k : ℕ} (hp : p < c.pageNums) (hk : k < c.maxOrder)
    (h : p + 2 ^ k < c.pageNums) : c.va2pg (c.aftPgva p k) = p + 2 ^ k := by
  have h1 := c.vaEnd_lt
  have h2 : c.aftPgva p k = c.vaStart + (p + 2 ^ k) * pageSize := by
    unfold aftPgva
    rw [pg2va_of_valid hp, order2byte_eq hk]
    simp only [pageSize, pageOffset] at *
    omega
  rw [h2, va2pg_add h]

end Layout

end AcoOs
