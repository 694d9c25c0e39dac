/-
The page table of the boot code.

Before the address translation is on, `setup_earlyvm` maps the memory of the kernel page by page.
Its tables are physical pages that `freemem_alloc_pa` takes one after the other from the memory
behind the kernel.  The macros of `early_vm.c` are those of `asm/vm.h`.

The model follows `early_vm.c` and `freemem_alloc_pa` of `kernel_map.c`.  A table is known by its
physical address.  `refused` is not in the source: it says that `freemem_alloc_pa` has returned
`NULL`.
-/
import AcoOs.PageTableCalls
import AcoOs.VirtualMemory

namespace AcoOs

/-- `EINVAL`. -/
def einval : ℤ := 22

/-- The words of the physical pages, and what the boot code keeps in `__map_of_kernel` and
`kernel_pagetable`. -/
structure EarlyMemory where
  words : ℕ → ℕ → ℕ
  paStFree : ℕ
  sizeFree : ℕ
  kernelPagetable : ℕ
  refused : Bool

/-- `SV39_PGT2SATP`. -/
def sv39Pgt2Satp (pgt : ℕ) : ℕ := ((pgt &&& 0xfffffffffff) >>> 12) ||| (8 <<< 60)

namespace EarlyMemory

/-- `pagetable->ptes[idx] = pte`. -/
def setWord (x : EarlyMemory) (pagetable idx pte : ℕ) : EarlyMemory :=
  { x with words := fun p i => if p = pagetable ∧ i = idx then pte else x.words p i }

/-- `freemem_alloc_pa`; `NULL` is 0. -/
def freememAllocPa (x : EarlyMemory) : ℕ × EarlyMemory :=
  if x.sizeFree < pageSize then (0, { x with refused := true })
  else
    (x.paStFree, { x with
      paStFree := (x.paStFree + pageSize) % 2 ^ 64
      sizeFree := x.sizeFree - pageSize })

/-- The tests at the head of `vm_walkthrough`. -/
def WalkArgs (pagetable va pa : ℕ) : Prop :=
  (pagetable ≠ 0 ∧ pagetable % pageSize = 0) ∧ va % pageSize = 0 ∧ pa % pageSize = 0

instance (pagetable va pa : ℕ) : Decidable (WalkArgs pagetable va pa) :=
  inferInstanceAs (Decidable (_ ∧ _))

/-- `vm_walkthrough` of `early_vm.c` on a table with `d` levels below it. -/
def vmWalkthrough (flags : ℕ) : ℕ → EarlyMemory → ℕ → ℕ → ℕ → ℤ × EarlyMemory
  | 0, x, pagetable, va, pa =>
    if ¬ WalkArgs pagetable va pa then (-einval, x)
    else if ¬ PteValid (x.words pagetable (sv39Index2Id va 2)) then
      (0, x.setWord pagetable (sv39Index2Id va 2) (sv39Pa2PTE pa flags))
    else (-eexist, x)
  | d + 1, x, pagetable, va, pa =>
    if ¬ WalkArgs pagetable va pa then (-einval, x)
    else if ¬ PteValid (x.words pagetable (sv39Index2Id va (1 - d))) then
      match x.freememAllocPa with
      | (ptr, x) =>
        if ptr = 0 then (-enomem, x)
        else
          -- the return value of this call is not looked at
          (0, (vmWalkthrough flags d (x.setWord pagetable (sv39Index2Id va (1 - d))
            (sv39Pa2PTE ptr vmProtV)) ptr va pa).2)
    else if ¬ PteNextpgt (x.words pagetable (sv39Index2Id va (1 - d))) then (-efault, x)
    else
      vmWalkthrough flags d x (sv39PTE2Pa (x.words pagetable (sv39Index2Id va (1 - d)))) va pa

/-- The loop of `vm_mmap` of `early_vm.c`, with `n` pages left. -/
def vmMmapLoop (flags pagetable : ℕ) : ℕ → EarlyMemory → ℕ → ℕ → ℤ × EarlyMemory
  | 0, x, _, _ => (0, x)
  | n + 1, x, va, pa =>
    match vmWalkthrough flags 2 x pagetable va pa with
    | (ret, x) =>
      if ret ≠ 0 then (ret, x)
      else vmMmapLoop flags pagetable n x (advance va 1) (advance pa 1)

/-- `vm_mmap` of `early_vm.c`: the return value, `*ptr_pagetable` and the memory. -/
def vmMmap (x : EarlyMemory) (pagetable va pa size flags : ℕ) : ℤ × ℕ × EarlyMemory :=
  if va % pageSize ≠ pa % pageSize then (-einval, pagetable, x)
  else if size % pageSize ≠ 0 then (-einval, pagetable, x)
  else
    match if pagetable = 0 then x.freememAllocPa else (pagetable, x) with
    | (pagetable, x) =>
      if pagetable = 0 then (-enomem, pagetable, x)
      else
        match vmMmapLoop flags pagetable (size / pageSize) x (va / pageSize * pageSize)
            (pa / pageSize * pageSize) with
        | (ret, x) => (ret, pagetable, x)

/-- `setup_earlyvm`, with `KERNEL_OFFSET` and what `get_kernel_start`, `get_seperate_line` and
`RISCV_MEMORY_PA_END` are; `none` when an `ASSERT` fails. -/
def setupEarlyvm (x : EarlyMemory) (kernelOffset kernelStart seperateLine memoryPaEnd : ℕ) :
    Option (ℕ × EarlyMemory) :=
  let befSize := (seperateLine + 2 ^ 64 - kernelStart) % 2 ^ 64
  let aftSize := (memoryPaEnd + 2 ^ 64 - seperateLine) % 2 ^ 64
  if befSize % pageSize = 0 then
    match x.vmMmap 0 kernelOffset kernelStart befSize (vmProtV ||| vmProtR ||| vmProtX) with
    | (ret, pagetable, x) =>
      if ret = 0 then
        match x.vmMmap pagetable ((kernelOffset + befSize) % 2 ^ 64) seperateLine
            (pageUpperAlign aftSize) (vmProtV ||| vmProtR ||| vmProtW) with
        | (ret, pagetable, x) =>
          if ret = 0 then
            some (pagetable, { x with kernelPagetable := sv39Pgt2Satp pagetable })
          else none
      else none
  else none

end EarlyMemory

end AcoOs
