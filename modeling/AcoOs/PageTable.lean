/-
The page tables of the RISC-V port: `vm_walkthrough`, `riscv_unmap`,
`riscv_free_pgtable` and the `__arch_hw_*` functions around them.

A `pgt*` is modelled by the id of the page the table fills, as a `struct pageframe*` is.
The recursion of the code goes from `index` 0 down to `index` 2; here `d` counts the
levels that are left, so `index` is `2 - d` and the recursion is structural.  The loop
over the entries of one table is a function of the number of entries left, and what it
does at one entry is a function of its own.

`none` says that an `ASSERT` fails.  The budget `*pages` is an `int`: the loops test it
for zero only after they lowered it, so a walk that starts with zero pages stops at the
end of the table.
-/
import AcoOs.Sv39
import AcoOs.RadixTable

namespace AcoOs

variable {L : VmLayout}

/-- The buddy allocator, the descriptors of the pages taken from it, and the 64-bit words
of the pages that are page tables: `words p i` is `ptes[i]` of the table in page `p`. -/
structure Memory (A : PageAllocator L.toLayout) where
  buddy : A.State
  pages : ℕ → Pageframe
  words : ℕ → ℕ → ℕ

namespace Memory

variable {A : PageAllocator L.toLayout}

/-- `pagetable->ptes[i] = pte`. -/
def setWord (x : Memory A) (t i pte : ℕ) : Memory A :=
  { x with words := Function.update x.words t (Function.update (x.words t) i pte) }

/-- `bkp_alloc_zero`; with the block named by its first page, also `bk_alloc_zero`. -/
def bkpAllocZero (x : Memory A) (order : ℤ) : Option ℕ × Memory A :=
  match A.alloc x.buddy order with
  | (none, b) => (none, { x with buddy := b })
  | (some p, b) => (some p, {
      buddy := b
      pages := Function.update x.pages p (.handed order.toNat)
      words := fun q => if p ≤ q ∧ q < p + 1 <<< order.toNat then fun _ => 0 else x.words q })

/-- `bkp_free` of a block, which reads the descriptor of its head. -/
def bkpFree (x : Memory A) (pgfm : ℕ) : Option (Memory A) :=
  if (x.pages pgfm).pgtype = .buddyAllocator ∧ (x.pages pgfm).Freeable then
    match A.free x.buddy pgfm with
    | none => none
    | some b => some { x with buddy := b }
  else none

/-- `bk_free` of an address in a page, which does nothing outside the managed pages. -/
def bkFree (x : Memory A) (pg : ℕ) : Option (Memory A) :=
  if L.pgValid pg then x.bkpFree pg else some x

end Memory

/-- `va += k * PAGE_SIZE`, as unsigned arithmetic has it. -/
def advance (va : ℕ) (k : ℤ) : ℕ := ((va + k * pageSize) % 2 ^ 64).toNat

/-- The table an entry points to; `none` when the `ASSERT` on its alignment fails. -/
def nextPgtable (L : VmLayout) (pte : ℕ) : Option ℕ :=
  if sv39PTE2Pa pte % pageSize = 0 ∧ L.pa2va (sv39PTE2Pa pte) % pageSize = 0 then
    some (L.va2pg (L.pa2va (sv39PTE2Pa pte)))
  else none

variable {A : PageAllocator L.toLayout}

/-! ### `vm_walkthrough` -/

/-- The loop of `vm_walkthrough` on `index == 2`, with `n` entries left: the return value,
the pages left and the memory. -/
def walkLeaves (flags pagetable : ℕ) : ℕ → Memory A → ℕ → ℕ → ℤ → ℤ × ℤ × Memory A
  | 0, x, _, _, pages => (0, pages, x)
  | n + 1, x, va, pa, pages =>
    if ¬ PteValid (x.words pagetable (pteNums - (n + 1))) then
      let x := x.setWord pagetable (pteNums - (n + 1)) (sv39Pa2PTE pa flags)
      if pages - 1 = 0 then (0, pages - 1, x)
      else walkLeaves flags pagetable n x (advance va 1) (advance pa 1) (pages - 1)
    -- the page is mapped already, and what was entered before it stays
    else (-eexist, pages, x)

/-- What the other loop of `vm_walkthrough` does at one entry; `next` is the recursive
call. -/
def walkEntry (next : ℕ → Memory A → ℕ → ℕ → ℤ → Option (ℤ × ℤ × Memory A))
    (pagetable idx : ℕ) (x : Memory A) (va pa : ℕ) (pages : ℤ) : Option (ℤ × ℤ × Memory A) :=
  if PteValid (x.words pagetable idx) then
    -- an entry for a larger page
    if ¬ PteNextpgt (x.words pagetable idx) then some (-efault, pages, x)
    else
      match nextPgtable L (x.words pagetable idx) with
      | none => none
      | some t => next t x va pa pages
  else
    match x.bkpAllocZero 0 with
    | (none, x) => some (-enomem, pages, x)
    | (some ptr, x) =>
      if L.pg2pa ptr % pageSize = 0 ∧ L.pg2va ptr % pageSize = 0 then
        -- linked before the walk goes on, so it stays when that fails
        next ptr (x.setWord pagetable idx (L.pointer ptr)) va pa pages
      else none

/-- The loop of `vm_walkthrough` on the other levels, with `n` entries left. -/
def walkDir (next : ℕ → Memory A → ℕ → ℕ → ℤ → Option (ℤ × ℤ × Memory A)) (pagetable : ℕ) :
    ℕ → Memory A → ℕ → ℕ → ℤ → Option (ℤ × ℤ × Memory A)
  | 0, x, _, _, pages => some (0, pages, x)
  | n + 1, x, va, pa, pages =>
    match walkEntry next pagetable (pteNums - (n + 1)) x va pa pages with
    | none => none
    | some (ret, pages', x) =>
      if ret ≠ 0 then some (ret, pages', x)
      else if pages' = 0 then some (0, pages', x)
      -- the next entry takes what was not mapped below this one
      else walkDir next pagetable n x (advance va (pages - pages')) (advance pa (pages - pages'))
        pages'

/-- `vm_walkthrough` on a table with `d` levels below it. -/
def vmWalkthrough (flags : ℕ) :
    ℕ → ℕ → Memory A → ℕ → ℕ → ℤ → Option (ℤ × ℤ × Memory A)
  | 0, pagetable, x, va, pa, pages =>
    some (walkLeaves flags pagetable (pteNums - sv39Index2Id va 2) x va pa pages)
  | d + 1, pagetable, x, va, pa, pages =>
    walkDir (vmWalkthrough flags d) pagetable (pteNums - sv39Index2Id va (1 - d)) x va pa pages

/-! ### `riscv_unmap` -/

/-- The loop of `riscv_unmap` on `index == 2`, with `n` entries left. -/
def unmapLeaves (pgtable : ℕ) : ℕ → Memory A → ℤ → ℤ × Memory A
  | 0, x, pages => (pages, x)
  | n + 1, x, pages =>
    let x := x.setWord pgtable (pteNums - (n + 1)) 0
    if pages - 1 = 0 then (pages - 1, x) else unmapLeaves pgtable n x (pages - 1)

/-- What the other loop of `riscv_unmap` does at one entry. -/
def unmapEntry (next : ℕ → Memory A → ℕ → ℤ → Option (ℤ × Memory A)) (index pgtable idx : ℕ)
    (x : Memory A) (va : ℕ) (pages : ℤ) : Option (ℤ × Memory A) :=
  if PteNextpgt (x.words pgtable idx) then
    if L.pa2va (sv39PTE2Pa (x.words pgtable idx)) ≠ 0 then
      match nextPgtable L (x.words pgtable idx) with
      | none => none
      | some t =>
        match next t x va pages with
        | none => none
        | some (pages', x) =>
          -- when the whole span was passed below the entry the table goes back
          if pages - pages' = sv39IndexPages index then
            match (x.setWord pgtable idx 0).bkFree t with
            | none => none
            | some x => some (pages', x)
          else some (pages', x)
    else none
  -- no table: a whole span is passed by, wherever `va` is in it
  else if sv39IndexPages index < pages then some (pages - sv39IndexPages index, x)
  else some (0, x)

/-- The loop of `riscv_unmap` on the other levels, with `n` entries left. -/
def unmapDir (next : ℕ → Memory A → ℕ → ℤ → Option (ℤ × Memory A)) (index pgtable : ℕ) :
    ℕ → Memory A → ℕ → ℤ → Option (ℤ × Memory A)
  | 0, x, _, pages => some (pages, x)
  | n + 1, x, va, pages =>
    match unmapEntry next index pgtable (pteNums - (n + 1)) x va pages with
    | none => none
    | some (pages', x) =>
      if pages' = 0 then some (pages', x)
      else unmapDir next index pgtable n x (advance va (pages - pages')) pages'

/-- `riscv_unmap` on a table with `d` levels below it. -/
def riscvUnmap : ℕ → ℕ → Memory A → ℕ → ℤ → Option (ℤ × Memory A)
  | 0, pgtable, x, va, pages =>
    some (unmapLeaves pgtable (pteNums - sv39Index2Id va 2) x pages)
  | d + 1, pgtable, x, va, pages =>
    unmapDir (riscvUnmap d) (1 - d) pgtable (pteNums - sv39Index2Id va (1 - d)) x va pages

/-! ### `riscv_free_pgtable` -/

/-- The loop of `riscv_free_pgtable` on `index == 2`. -/
def freeLeaves (pgtable : ℕ) : ℕ → Memory A → Memory A
  | 0, x => x
  | n + 1, x =>
    freeLeaves pgtable n
      (if PteValid (x.words pgtable (pteNums - (n + 1))) then
        x.setWord pgtable (pteNums - (n + 1)) 0
      else x)

/-- What the other loop of `riscv_free_pgtable` does at one entry. -/
def freeEntry (next : ℕ → Memory A → Option (Memory A)) (pgtable i : ℕ) (x : Memory A) :
    Option (Memory A) :=
  if PteNextpgt (x.words pgtable i) then
    match nextPgtable L (x.words pgtable i) with
    | none => none
    | some t =>
      match next t x with
      | none => none
      | some x => (x.setWord pgtable i 0).bkFree t
  -- an entry for a larger page fails the `ASSERT`
  else if ¬ PteValid (x.words pgtable i) then some x
  else none

/-- The loop of `riscv_free_pgtable` on the other levels. -/
def freeDir (next : ℕ → Memory A → Option (Memory A)) (pgtable : ℕ) :
    ℕ → Memory A → Option (Memory A)
  | 0, x => some x
  | n + 1, x =>
    match freeEntry next pgtable (pteNums - (n + 1)) x with
    | none => none
    | some x => freeDir next pgtable n x

/-- `riscv_free_pgtable` on a table with `d` levels below it. -/
def riscvFreePgtable : ℕ → ℕ → Memory A → Option (Memory A)
  | 0, pgtable, x => some (freeLeaves pgtable pteNums x)
  | d + 1, pgtable, x => freeDir (riscvFreePgtable d) pgtable pteNums x

/-! ### The functions of `mm/vm.h` -/

namespace Memory

/-- `__arch_hw_unmap`. -/
def hwUnmap (x : Memory A) (pgtable va size : ℕ) : Option (Memory A) :=
  if size % pageSize = 0 ∧ va % pageSize = 0 then
    if size = 0 then some x
    else if 0 ≤ toInt32 (size / pageSize) then
      match riscvUnmap 2 pgtable x va (toInt32 (size / pageSize)) with
      | none => none
      | some (npages, x) => if npages = 0 then some x else none
    else none
  else none

/-- `__arch_hw_mmap`. -/
def hwMmap (x : Memory A) (pgtable va pa prot size : ℕ) : Option (ℤ × Memory A) :=
  if va % pageSize = 0 ∧ pa % pageSize = 0 ∧ size % pageSize = 0 then
    if size = 0 then some (0, x)
    else if 0 ≤ toInt32 (size / pageSize) then
      match vmWalkthrough prot 2 pgtable x va pa (toInt32 (size / pageSize)) with
      | none => none
      | some (ret, npages, x) =>
        if ret ≠ 0 then
          -- what was mapped is unmapped again
          match hwUnmap x pgtable va
              (((toInt32 (size / pageSize) - npages) * pageSize) % 2 ^ 64).toNat with
          | none => none
          | some x => some (ret, x)
        else some (0, x)
    else none
  else none

/-- `__arch_hw_unmap_all`. -/
def hwUnmapAll (x : Memory A) (pgtable : ℕ) : Option (Memory A) := riscvFreePgtable 2 pgtable x

end Memory

end AcoOs
