/-
The page table of the boot code and the areas of the kernel.

`setup_earlyvm` maps the memory from the start of the kernel on, with the macros of `kernel_map.h`;
`vm_module_init` later registers two areas with those of `mm/pageframe.h`.  Both come from what
`kernel_map_init` has put into `__map_of_kernel`.

* **`early_vm_agrees_iff`** — with enough free pages the page table of `setup_earlyvm` translates
  every address below `2 ^ 39` as the two areas do that `vm_module_init` records, if and only if the
  memory ends where Sv39 can still address it.
-/
import AcoOs.EarlyPages
import AcoOs.WalkAgreement

namespace AcoOs

/-! ### `kernel_map.c` -/

/-- `KERNEL_OFFSET`. -/
def kernelOffset : ℕ := 0x3000000000

/-- `struct kernel_mapping`. -/
structure KernelMapping where
  paStMemory : ℕ
  sizeMemory : ℕ
  paStKernel : ℕ
  sizeKernel : ℕ
  paStFree : ℕ
  sizeFree : ℕ
  va2paOffset : ℕ

namespace KernelMapping

variable (m : KernelMapping)

/-- `RISCV_KERNEL_PA_END`. -/
def riscvKernelPaEnd : ℕ := (m.paStKernel + m.sizeKernel) % 2 ^ 64

/-- `RISCV_KERNEL_VA_START`, which is `PGFRAME_VA_START`. -/
def riscvKernelVaStart : ℕ := (m.paStKernel + m.va2paOffset) % 2 ^ 64

/-- `RISCV_MEMORY_PA_END`. -/
def riscvMemoryPaEnd : ℕ := (m.paStMemory + m.sizeMemory) % 2 ^ 64

/-- `PGFRAME_SIZE`. -/
def pgframeSize : ℕ := (m.riscvMemoryPaEnd + 2 ^ 64 - m.paStKernel) % 2 ^ 64

/-- The conditions that `riscv_kernel_map_test` checks on every machine. -/
def checks : List Bool :=
  let ksAddrs := m.paStKernel
  let msAddrs := m.paStMemory
  let kSize := m.sizeKernel
  let mSize := m.sizeMemory
  let keAddrs := (ksAddrs + kSize) % 2 ^ 64
  let meAddrs := (msAddrs + mSize) % 2 ^ 64
  [kSize < mSize, msAddrs ≤ ksAddrs ∧ ksAddrs < meAddrs, msAddrs ≤ keAddrs ∧ keAddrs < meAddrs,
    ksAddrs < kernelOffset, keAddrs < kernelOffset, msAddrs < kernelOffset,
    meAddrs < kernelOffset]

/-- `riscv_kernel_map_test`: `*success` and `*error`. -/
def riscvKernelMapTest : ℕ × ℕ := (m.checks.count true, m.checks.count false)

end KernelMapping

/-- `kernel_map_init`, where `address` and `size` are what the device tree says about the memory. -/
def kernelMapInit (kernelStart kernelEnd address size : ℕ) : KernelMapping :=
  let sizeKernel := (kernelEnd + 2 ^ 64 - kernelStart) % 2 ^ 64
  let kernelPaEnd := (kernelStart + sizeKernel) % 2 ^ 64
  { paStMemory := address
    sizeMemory := size
    paStKernel := kernelStart
    sizeKernel := sizeKernel
    paStFree := kernelPaEnd
    sizeFree := ((address + size) % 2 ^ 64 + 2 ^ 64 - kernelPaEnd) % 2 ^ 64
    va2paOffset := (kernelOffset + 2 ^ 64 - kernelStart) % 2 ^ 64 }

/-- A kernel in memory: its lines are page-aligned and in the order of the linker script.  Physical
addresses have 56 bits. -/
structure KernelImage where
  kernelStart : ℕ
  seperateLine : ℕ
  kernelEnd : ℕ
  address : ℕ
  size : ℕ
  kernelStart_aligned : kernelStart % pageSize = 0
  seperateLine_aligned : seperateLine % pageSize = 0
  kernelEnd_aligned : kernelEnd % pageSize = 0
  memoryEnd_aligned : (address + size) % pageSize = 0
  start_lt : kernelStart < seperateLine
  line_le : seperateLine ≤ kernelEnd
  kernelEnd_lt : kernelEnd < address + size
  memoryEnd_le : address + size ≤ 2 ^ 56

namespace KernelImage

variable (b : KernelImage)

/-- `__map_of_kernel`. -/
def map : KernelMapping := kernelMapInit b.kernelStart b.kernelEnd b.address b.size

/-- The end of the memory. -/
def memoryEnd : ℕ := b.address + b.size

theorem bounds : b.kernelStart < b.seperateLine ∧ b.seperateLine ≤ b.kernelEnd ∧
    b.kernelEnd < b.memoryEnd ∧ b.memoryEnd ≤ 2 ^ 56 :=
  ⟨b.start_lt, b.line_le, b.kernelEnd_lt, b.memoryEnd_le⟩

theorem map_memoryEnd : b.map.riscvMemoryPaEnd = b.memoryEnd :=
  Nat.mod_eq_of_lt (b.memoryEnd_le.trans_lt (by norm_num))

theorem map_kernelEnd : b.map.riscvKernelPaEnd = b.kernelEnd := by
  have h := b.bounds
  show (b.kernelStart + (b.kernelEnd + 2 ^ 64 - b.kernelStart) % 2 ^ 64) % 2 ^ 64 = _
  omega

theorem map_sizeFree : b.map.sizeFree = b.memoryEnd - b.kernelEnd := by
  have h := b.bounds
  have heq : b.map.sizeFree = (b.map.riscvMemoryPaEnd + 2 ^ 64 - b.map.riscvKernelPaEnd) % 2 ^ 64 :=
    rfl
  rw [heq, map_memoryEnd, map_kernelEnd]
  omega

/-- `KERNEL_OFFSET`, also for a kernel that starts above it. -/
theorem map_vaStart : b.map.riscvKernelVaStart = kernelOffset := by
  have h := b.bounds
  show (b.kernelStart + (kernelOffset + 2 ^ 64 - b.kernelStart) % 2 ^ 64) % 2 ^ 64 = _
  rw [kernelOffset]
  omega

theorem map_pgframeSize : b.map.pgframeSize = b.memoryEnd - b.kernelStart := by
  have h := b.bounds
  show (b.map.riscvMemoryPaEnd + 2 ^ 64 - b.kernelStart) % 2 ^ 64 = _
  rw [map_memoryEnd]
  omega

/-- When `riscv_kernel_map_test` finds no error, the memory ends below `KERNEL_OFFSET`, and Sv39 can
address it.  `kernel_map_init` only prints what the test has found. -/
theorem fits_of_test (h : b.map.riscvKernelMapTest.2 = 0) :
    b.memoryEnd - b.kernelStart ≤ 2 ^ 39 - kernelOffset := by
  have hall : ∀ c ∈ b.map.checks, c = true := fun c hc => by
    cases c with
    | true => rfl
    | false => exact absurd hc (List.count_eq_zero.1 h)
  have hend : decide (b.map.riscvMemoryPaEnd < kernelOffset) = true :=
    hall _ (.tail _ (.tail _ (.tail _ (.tail _ (.tail _ (.tail _ (.head _)))))))
  have hlt := of_decide_eq_true hend
  rw [map_memoryEnd] at hlt
  rw [kernelOffset] at *
  omega

/-! The pages of the image. -/

/-- `PGFRAME_PAGE_NUMS`. -/
def pageNums : ℕ := b.map.pgframeSize / pageSize

/-- The pages before the separation line. -/
def textPages : ℕ := (b.seperateLine - b.kernelStart) / pageSize

theorem pageNums_mul : b.pageNums * pageSize = b.memoryEnd - b.kernelStart := by
  have h1 := b.kernelStart_aligned
  have h2 := b.memoryEnd_aligned
  rw [pageNums, map_pgframeSize]
  simp only [memoryEnd, pageSize, pageOffset] at *
  omega

theorem textPages_mul : b.textPages * pageSize = b.seperateLine - b.kernelStart := by
  have h1 := b.kernelStart_aligned
  have h2 := b.seperateLine_aligned
  rw [textPages]
  simp only [pageSize, pageOffset] at *
  omega

theorem textPages_pos : 0 < b.textPages := by
  have h1 := b.textPages_mul
  have h2 := b.start_lt
  by_contra h
  rw [Nat.eq_zero_of_not_pos h, Nat.zero_mul] at h1
  omega

theorem textPages_lt : b.textPages < b.pageNums := by
  have h := b.bounds
  refine Nat.lt_of_mul_lt_mul_right (a := pageSize) ?_
  rw [textPages_mul, pageNums_mul]
  omega

/-- The page tables that the memory needs: the root, and those of both levels below it. -/
def tables : ℕ :=
  1 + (b.pageNums + 511) / 512 + (b.pageNums + (512 ^ 2 - 1)) / 512 ^ 2

/-- What the boot code starts with. -/
def early (words : ℕ → ℕ → ℕ) (satp : ℕ) : EarlyMemory :=
  ⟨words, b.map.paStFree, b.map.sizeFree, satp, false⟩

theorem early_sizeFree (words : ℕ → ℕ → ℕ) (satp : ℕ) :
    (b.early words satp).sizeFree = b.memoryEnd - b.kernelEnd := b.map_sizeFree

theorem early_ok (words : ℕ → ℕ → ℕ) (satp : ℕ)
    (hzero : ∀ p, (b.early words satp).Free p → ∀ j < 512, words p j = 0) :
    (b.early words satp).Ok := by
  have h := b.bounds
  have hfree : (b.early words satp).paStFree = b.kernelEnd := b.map_kernelEnd
  refine ⟨?_, ?_, ?_, hzero⟩
  · rw [hfree]
    exact b.kernelEnd_aligned
  · rw [hfree]
    omega
  · rw [hfree, early_sizeFree, Nat.add_sub_cancel' h.2.2.1.le]
    exact h.2.2.2

/-! The two areas. -/

/-- `get_seperate_line`, when the address translation is on. -/
def seperateVa : ℕ := (b.seperateLine + b.map.va2paOffset) % 2 ^ 64

/-- The areas that `vm_module_init` makes of `PGFRAME_VA_START`, `PGFRAME_PA_START`, `PGFRAME_SIZE`
and the separation line. -/
def areas : List VmaArea :=
  let vaStart := b.map.riscvKernelVaStart
  let paStart := b.map.paStKernel
  let seperateSize := (b.seperateVa + 2 ^ 64 - vaStart) % 2 ^ 64
  [{ vmarTyp := .kernel
     va := vaStart
     size := seperateSize
     pa := paStart
     pgfm := none
     prot := vmProtV ||| vmProtX ||| vmProtR },
   { vmarTyp := .kernel
     va := (vaStart + seperateSize) % 2 ^ 64
     size := (b.map.pgframeSize + 2 ^ 64 - seperateSize) % 2 ^ 64
     pa := (paStart + seperateSize) % 2 ^ 64
     pgfm := none
     prot := vmProtV ||| vmProtW ||| vmProtR }]

/-- The code. -/
def text : VmaArea where
  vmarTyp := .kernel
  va := kernelOffset
  size := b.textPages * pageSize
  pa := b.kernelStart
  pgfm := none
  prot := vmProtV ||| vmProtX ||| vmProtR

/-- The rest of the memory. -/
def data : VmaArea where
  vmarTyp := .kernel
  va := kernelOffset + b.textPages * pageSize
  size := (b.pageNums - b.textPages) * pageSize
  pa := b.kernelStart + b.textPages * pageSize
  pgfm := none
  prot := vmProtV ||| vmProtW ||| vmProtR

theorem text_size : b.text.size = b.seperateLine - b.kernelStart := b.textPages_mul

theorem data_va : b.data.va = kernelOffset + (b.seperateLine - b.kernelStart) :=
  congrArg (kernelOffset + ·) b.textPages_mul

theorem data_pa : b.data.pa = b.seperateLine := by
  have h := b.bounds
  have heq : b.data.pa = b.kernelStart + b.textPages * pageSize := rfl
  rw [heq, textPages_mul]
  omega

theorem data_size : b.data.size = b.memoryEnd - b.seperateLine := by
  have h := b.bounds
  have heq : b.data.size = (b.pageNums - b.textPages) * pageSize := rfl
  rw [heq, Nat.sub_mul, pageNums_mul, textPages_mul]
  omega

theorem seperateVa_eq : b.seperateVa = kernelOffset + b.textPages * pageSize := by
  have h := b.bounds
  rw [textPages_mul]
  show (b.seperateLine + (kernelOffset + 2 ^ 64 - b.kernelStart) % 2 ^ 64) % 2 ^ 64 = _
  rw [kernelOffset]
  omega

theorem areas_eq : b.areas = [b.text, b.data] := by
  have h := b.bounds
  have hmul := b.textPages_mul
  have hsize : (kernelOffset + b.textPages * pageSize + 2 ^ 64 - kernelOffset) % 2 ^ 64 =
      b.text.size := by
    rw [text_size, kernelOffset]
    omega
  have hva : (kernelOffset + b.text.size) % 2 ^ 64 = b.data.va := by
    rw [text_size, data_va, kernelOffset]
    omega
  have hpa : (b.kernelStart + b.text.size) % 2 ^ 64 = b.data.pa := by
    rw [text_size, data_pa]
    omega
  have hrest : (b.memoryEnd - b.kernelStart + 2 ^ 64 - b.text.size) % 2 ^ 64 = b.data.size := by
    rw [text_size, data_size]
    omega
  unfold areas
  conv_lhs => zeta
  rw [map_vaStart, seperateVa_eq, map_pgframeSize, hsize, hva, hrest,
    show b.map.paStKernel = b.kernelStart from rfl, hpa]
  rfl

/-- The managed range of `mm/pageframe.h`, and the separation line in it. -/
structure HasLayout (L : VmLayout) : Prop where
  paStart : L.paStart = b.map.paStKernel
  vaStart : L.vaStart = b.map.riscvKernelVaStart
  pageNums : L.pageNums = b.map.pgframeSize / pageSize
  seperate : VmState.seperateLine L = b.seperateVa

theorem HasLayout.areas {L : VmLayout} (h : b.HasLayout L) :
    [kernelText L, kernelData L] = b.areas := by
  have hva : L.vaStart = kernelOffset := h.vaStart.trans b.map_vaStart
  have hpa : L.paStart = b.kernelStart := h.paStart
  have hnums : L.pageNums = b.pageNums := h.pageNums
  have hsep : L.seperate = b.textPages := by
    have := h.seperate.trans b.seperateVa_eq
    rw [VmState.seperateLine, hva] at this
    exact Nat.eq_of_mul_eq_mul_right (by decide) (Nat.add_left_cancel this)
  rw [areas_eq, kernelText, kernelData, hva, hpa, hnums, hsep]
  rfl

end KernelImage

/-! ### Translations -/

/-- The frame and the permissions that an area gives to an address. -/
def VmaArea.translate (area : VmaArea) (va : ℕ) : Option (ℕ × ℕ) :=
  if area.va ≤ va ∧ va < area.va + area.size then
    some (area.pa + (va / pageSize * pageSize - area.va), area.prot)
  else none

/-- What some areas together translate an address to. -/
def unionOf (areas : List VmaArea) (va : ℕ) : Option (ℕ × ℕ) :=
  areas.findSome? (·.translate va)

/-- An entry for a page. -/
theorem pageOf_pa2PTE {pa prot : ℕ} (h : prot % 16 ≠ 1) (h' : prot % 2 = 1) :
    pageOf (some (sv39Pa2PTE pa prot)) = some (pteFrame (sv39Pa2PTE pa prot)) := by
  refine if_pos ⟨pteValid_pa2PTE.2 h', ?_⟩
  rw [pteNextpgt_iff, sv39Pa2PTE_eq]
  omega

/-- A range that is mapped to the memory of an area has the translation of the area. -/
theorem RangeEntered.translate {leaf leaf' : ℕ → Option ℕ} {area : VmaArea} {va : ℕ}
    (h : RangeEntered leaf leaf' area.va area.pa area.size area.prot)
    (hva : area.va % pageSize = 0) (hpa : area.pa % pageSize = 0)
    (hsize : area.size % pageSize = 0) (hspan : area.va + area.size ≤ 2 ^ 39)
    (hend : area.pa + area.size ≤ 2 ^ 56)
    (hprot : area.prot % 16 ≠ 1 ∧ area.prot % 2 = 1 ∧ area.prot &&& 0x3ff = area.prot)
    (hin : area.va ≤ va ∧ va < area.va + area.size) :
    pageOf (leaf' (position 2 va)) = area.translate va := by
  have hpos : position 2 va = position 2 area.va + (va / pageSize - area.va / pageSize) := by
    unfold position
    rw [show 512 ^ (2 + 1) = 2 ^ 27 by norm_num]
    simp only [pageSize, pageOffset] at *
    omega
  have hi : va / pageSize - area.va / pageSize < area.size / pageSize := by
    simp only [pageSize, pageOffset] at *
    omega
  rw [hpos, h.entry _ hi, pageOf_pa2PTE hprot.1 hprot.2.1,
    pteFrame_pa2PTE _ (by rw [Nat.add_mul_mod_self_right]; exact hpa), hprot.2.2,
    VmaArea.translate, if_pos hin]
  congr 2
  simp only [pageSize, pageOffset] at *
  omega

/-! ### `setup_earlyvm` -/

/-- `PROT_V | PROT_X | PROT_R` is for pages, and fits an entry. -/
theorem textProt : (vmProtV ||| vmProtX ||| vmProtR) % 16 ≠ 1 ∧
    (vmProtV ||| vmProtX ||| vmProtR) % 2 = 1 ∧
    (vmProtV ||| vmProtX ||| vmProtR) &&& 0x3ff = vmProtV ||| vmProtX ||| vmProtR := by decide

theorem dataProt : (vmProtV ||| vmProtW ||| vmProtR) % 16 ≠ 1 ∧
    (vmProtV ||| vmProtW ||| vmProtR) % 2 = 1 ∧
    (vmProtV ||| vmProtW ||| vmProtR) &&& 0x3ff = vmProtV ||| vmProtW ||| vmProtR := by decide

theorem textProt_eq : vmProtV ||| vmProtR ||| vmProtX = vmProtV ||| vmProtX ||| vmProtR := by
  decide

theorem dataProt_eq : vmProtV ||| vmProtR ||| vmProtW = vmProtV ||| vmProtW ||| vmProtR := by
  decide

namespace KernelImage

variable (b : KernelImage)

/-- The pages from `KERNEL_OFFSET` to the end of what Sv39 addresses. -/
def pagesAbove : ℕ := 5 * 2 ^ 24

theorem pagesAbove_le_iff :
    b.pageNums ≤ pagesAbove ↔ b.memoryEnd - b.kernelStart ≤ 2 ^ 39 - kernelOffset := by
  rw [← pageNums_mul, kernelOffset, pagesAbove]
  simp only [pageSize, pageOffset]
  omega

/-- `bef_size`. -/
theorem befSize_eq : (b.seperateLine + 2 ^ 64 - b.kernelStart) % 2 ^ 64 = b.text.size := by
  have h := b.bounds
  rw [text_size]
  omega

/-- `aft_size`, which is aligned already. -/
theorem aftSize_eq :
    pageUpperAlign ((b.map.riscvMemoryPaEnd + 2 ^ 64 - b.seperateLine) % 2 ^ 64) = b.data.size := by
  have h := b.bounds
  have h1 := b.seperateLine_aligned
  have h2 : b.memoryEnd % pageSize = 0 := b.memoryEnd_aligned
  rw [map_memoryEnd, data_size, pageUpperAlign]
  simp only [pageSize, pageOffset] at *
  omega

theorem vaSeperate_eq : (kernelOffset + b.text.size) % 2 ^ 64 = b.data.va := by
  have h := b.bounds
  rw [text_size, data_va, kernelOffset]
  omega

theorem text_pages : b.text.size / pageSize = b.textPages := Nat.mul_div_cancel _ (by decide)

theorem data_pages : b.data.size / pageSize = b.pageNums - b.textPages :=
  Nat.mul_div_cancel _ (by decide)

theorem text_va_aligned : b.text.va % pageSize = 0 := by
  show kernelOffset % pageSize = 0
  decide

theorem text_pa_aligned : b.text.pa % pageSize = 0 := b.kernelStart_aligned

theorem text_size_aligned : b.text.size % pageSize = 0 := Nat.mul_mod_left _ _

theorem data_size_aligned : b.data.size % pageSize = 0 := Nat.mul_mod_left _ _

theorem data_va_aligned : b.data.va % pageSize = 0 := Nat.add_mul_mod_self_right _ _ _

theorem data_pa_aligned : b.data.pa % pageSize = 0 :=
  (Nat.add_mul_mod_self_right _ _ _).trans b.kernelStart_aligned

theorem text_position : position 2 b.text.va = 3 * 2 ^ 24 := by
  show kernelOffset / pageSize % 512 ^ (2 + 1) = _
  norm_num [kernelOffset, pageSize, pageOffset]

theorem data_position_mod : position 2 b.data.va = (3 * 2 ^ 24 + b.textPages) % tableSpan := by
  show (kernelOffset + b.textPages * pageSize) / pageSize % 512 ^ (2 + 1) = _
  rw [tableSpan_eq, kernelOffset, show 512 ^ (2 + 1) = 2 ^ 27 by norm_num]
  simp only [pageSize, pageOffset]
  omega

theorem data_position (h : b.textPages < pagesAbove) :
    position 2 b.data.va = 3 * 2 ^ 24 + b.textPages := by
  rw [pagesAbove] at h
  rw [data_position_mod, tableSpan_eq]
  exact Nat.mod_eq_of_lt (by omega)

theorem text_vaEnd_le (h : b.textPages ≤ pagesAbove) : b.text.va + b.text.size ≤ 2 ^ 39 := by
  show kernelOffset + b.textPages * pageSize ≤ _
  simp only [pagesAbove, kernelOffset, pageSize, pageOffset] at *
  omega

theorem data_vaEnd_le (h : b.pageNums ≤ pagesAbove) : b.data.va + b.data.size ≤ 2 ^ 39 := by
  have hlt := b.textPages_lt
  show kernelOffset + b.textPages * pageSize + (b.pageNums - b.textPages) * pageSize ≤ _
  simp only [pagesAbove, kernelOffset, pageSize, pageOffset] at *
  omega

theorem text_paEnd_le : b.text.pa + b.text.size ≤ 2 ^ 56 := by
  have h := b.bounds
  rw [text_size, show b.text.pa = b.kernelStart from rfl]
  omega

theorem data_paEnd_le : b.data.pa + b.data.size ≤ 2 ^ 56 := by
  have h := b.bounds
  rw [data_size, data_pa]
  omega

end KernelImage

namespace EarlyMemory

variable {x y : EarlyMemory} {t p b n va pa size flags : ℕ}

/-- The page that `freemem_alloc_pa` returns for the root is an empty table. -/
theorem Took.root (h : Took x y p) (hx : x.Ok) :
    y.IsTable 2 p ∧ ∀ w < tableSpan, y.leaf 2 p w = none := by
  have hclear : ∀ j < 512, y.words p j = 0 := by
    intro j hj
    rw [h.words]
    exact hx.zero p h.free j hj
  refine ⟨isTable_of_clear hclear ⟨h.ne_zero, h.free.1⟩ fun hf => ((h.free_iff p).1 hf).2 rfl,
    fun w hw => leaf_hole ?_⟩
  rw [hclear _ (by rwa [Nat.div_lt_iff_lt_mul (pow_pos (by norm_num) _), ← pow_succ'])]
  exact earlyFormat.next_empty

/-- With `NULL` for the page table, `vm_mmap` takes a page for the root. -/
theorem vmMmap_null (h : x.freememAllocPa = (p, y)) (hp : p ≠ 0) (hva : va % pageSize = 0)
    (hpa : pa % pageSize = 0) (hsize : size % pageSize = 0) :
    x.vmMmap 0 va pa size flags = y.vmMmap p va pa size flags := by
  have hargs : ¬ va % pageSize ≠ pa % pageSize := by
    rw [hva, hpa]
    exact fun h => h rfl
  unfold vmMmap
  rw [if_neg hargs, if_neg (not_not.2 hsize), if_pos rfl, h, if_neg hargs,
    if_neg (not_not.2 hsize), if_neg hp]

theorem Mapped.rangeEntered
    (h : Mapped x y t (position 2 va) (size / pageSize) pa flags) :
    RangeEntered (x.leaf 2 t) (y.leaf 2 t) va pa size flags where
  entry := h.entry
  rest w hw hout := pageOf_rest (h.rest w hw hout)

/-- A free range is entered when there are enough pages. -/
theorem vmMmap_enters (va pa size flags : ℕ) (hx : x.Ok) (ht : x.IsTable 2 t)
    (href : x.refused = false) (hva : va % pageSize = 0) (hpa : pa % pageSize = 0)
    (hsize : size % pageSize = 0) (hn : size / pageSize = n + 1) (hspan : va + size ≤ 2 ^ 39)
    (hfree : ¬ Occupied (x.leaf 2 t) va size)
    (hmissing : x.missing 2 t (position 2 va) ≤ b)
    (hroom : (b + tablesBehind (position 2 va) n) * pageSize ≤ x.sizeFree) :
    ∃ y, x.vmMmap t va pa size flags = (0, t, y) ∧ Step x y 2 t ∧
      Mapped x y t (position 2 va) (size / pageSize) pa flags ∧
      Room x y (b + tablesBehind (position 2 va) n) := by
  have hpos : 0 < size := by
    rcases Nat.eq_zero_or_pos size with rfl | h
    · cases hn
    · exact h
  have hrange := range_le hspan hpos
  have hr := vmMmap_room flags hx ht href hva hpa hsize hn (by omega) hmissing hroom
  obtain ⟨ret, y, heq, hstep, hcase⟩ := vmMmap_spec flags hx ht hva hpa hsize hrange
  rw [heq] at hr
  rcases hcase (hr.refused.trans href) with ⟨rfl, hm⟩ | ⟨-, hocc⟩
  · exact ⟨y, heq, hstep, hm, hr⟩
  · exact absurd hocc hfree

end EarlyMemory

namespace KernelImage

open EarlyMemory

variable (b : KernelImage) {x x' y z x₁ : EarlyMemory} {t root : ℕ}

/-- After both ranges have been entered in an empty table, it translates as the areas do. -/
theorem translate_of_mapped {x₁ x₂ x₃ : EarlyMemory} (hfit : b.pageNums ≤ pagesAbove)
    (hnone : ∀ w < tableSpan, x₁.leaf 2 t w = none)
    (htext : Mapped x₁ x₂ t (position 2 b.text.va) (b.text.size / pageSize) b.text.pa b.text.prot)
    (hdata : Mapped x₂ x₃ t (position 2 b.data.va) (b.data.size / pageSize) b.data.pa b.data.prot)
    {va : ℕ} (hva : va < 2 ^ 39) :
    pageOf (x₃.leaf 2 t (position 2 va)) = unionOf b.areas va := by
  have hlt := b.textPages_lt
  have hw : position 2 va < tableSpan := position_lt 2 va
  have hpos : position 2 va = va / pageSize := by
    refine Nat.mod_eq_of_lt ?_
    rw [show 512 ^ (2 + 1) = 2 ^ 27 by norm_num]
    simp only [pageSize, pageOffset]
    omega
  have hout₂ := htext.rangeEntered.rest (position 2 va) hw
  have hout₃ := hdata.rangeEntered.rest (position 2 va) hw
  rw [text_position, text_pages, hpos] at hout₂
  rw [b.data_position (hlt.trans_le hfit), data_pages, hpos] at hout₃
  rw [← hpos] at hout₂ hout₃
  rw [areas_eq]
  by_cases hin : b.text.va ≤ va ∧ va < b.text.va + b.text.size
  · -- before the separation line the second range changes nothing
    have ht := htext.rangeEntered.translate b.text_va_aligned
      b.text_pa_aligned b.text_size_aligned (b.text_vaEnd_le (hlt.le.trans hfit))
      b.text_paEnd_le textProt hin
    have hbefore : va / pageSize < 3 * 2 ^ 24 + b.textPages := by
      have : va < kernelOffset + b.textPages * pageSize := hin.2
      simp only [kernelOffset, pageSize, pageOffset] at *
      omega
    rw [hout₃ (.inl (by rw [hpos]; exact hbefore)), ht, unionOf, List.findSome?_cons,
      VmaArea.translate, if_pos hin]
  by_cases hin' : b.data.va ≤ va ∧ va < b.data.va + b.data.size
  · have ht := hdata.rangeEntered.translate b.data_va_aligned b.data_pa_aligned
      b.data_size_aligned (b.data_vaEnd_le hfit) b.data_paEnd_le dataProt hin'
    have hno : b.text.translate va = none := if_neg hin
    rw [ht, unionOf, List.findSome?_cons, hno, List.findSome?_cons]
    dsimp only
    rw [VmaArea.translate, if_pos hin']
  · have hno : b.text.translate va = none := if_neg hin
    have hno' : b.data.translate va = none := if_neg hin'
    have hends : va < kernelOffset ∨ kernelOffset + b.pageNums * pageSize ≤ va := by
      have h7 : ¬ (kernelOffset ≤ va ∧ va < kernelOffset + b.textPages * pageSize) := hin
      have h8 : ¬ (kernelOffset + b.textPages * pageSize ≤ va ∧ va < kernelOffset +
        b.textPages * pageSize + (b.pageNums - b.textPages) * pageSize) := hin'
      rw [Nat.add_assoc, ← Nat.add_mul, Nat.add_sub_cancel' hlt.le] at h8
      omega
    have hpage : va / pageSize < 3 * 2 ^ 24 ∨ 3 * 2 ^ 24 + b.pageNums ≤ va / pageSize := by
      simp only [kernelOffset, pageSize, pageOffset] at *
      omega
    rw [hout₃ (by omega), hout₂ (by omega), hnone _ hw, unionOf, List.findSome?_cons, hno,
      List.findSome?_cons, hno']
    rfl

/-- `setup_earlyvm` enters the two areas. -/
theorem setupEarlyvm_iff :
    x.setupEarlyvm kernelOffset b.kernelStart b.seperateLine b.map.riscvMemoryPaEnd =
        some (root, x') ↔
      ∃ p y z, x.vmMmap 0 b.text.va b.text.pa b.text.size b.text.prot = (0, p, y) ∧
        y.vmMmap p b.data.va b.data.pa b.data.size b.data.prot = (0, root, z) ∧
        x' = { z with kernelPagetable := sv39Pgt2Satp root } := by
  have hal : b.text.size % pageSize = 0 := Nat.mul_mod_left _ _
  unfold setupEarlyvm
  conv_lhs => zeta
  rw [befSize_eq, aftSize_eq, vaSeperate_eq, textProt_eq, dataProt_eq, if_pos hal, data_pa,
    show kernelOffset = b.text.va from rfl, show b.kernelStart = b.text.pa from rfl,
    show vmProtV ||| vmProtX ||| vmProtR = b.text.prot from rfl,
    show vmProtV ||| vmProtW ||| vmProtR = b.data.prot from rfl]
  rcases hr : x.vmMmap 0 b.text.va b.text.pa b.text.size b.text.prot with ⟨ret, p, y⟩
  dsimp only
  by_cases hret : ret = 0
  swap
  · rw [if_neg hret]
    refine iff_of_false (fun h => nomatch h) ?_
    rintro ⟨_, _, _, h, -⟩
    exact hret (congrArg Prod.fst h)
  subst hret
  rw [if_pos rfl]
  rcases hr' : y.vmMmap p b.data.va b.seperateLine b.data.size b.data.prot with ⟨ret', q, z⟩
  dsimp only
  by_cases hret' : ret' = 0
  · subst hret'
    rw [if_pos rfl]
    constructor
    · rintro ⟨⟩
      exact ⟨p, y, z, rfl, hr', rfl⟩
    · rintro ⟨_, _, _, ⟨⟩, h, rfl⟩
      rw [hr'] at h
      cases h
      rfl
  · rw [if_neg hret']
    refine iff_of_false (fun h => nomatch h) ?_
    rintro ⟨_, _, _, ⟨⟩, h, -⟩
    rw [hr'] at h
    exact hret' (congrArg Prod.fst h)

/-- The tables for the code and for `m` pages behind it. -/
theorem tablesBehind_text (m : ℕ) :
    2 + tablesBehind (3 * 2 ^ 24) (b.textPages + m - 1) =
      2 + tablesBehind (3 * 2 ^ 24) (b.textPages - 1) +
        tablesBehind (3 * 2 ^ 24 + (b.textPages - 1)) m := by
  have h := b.textPages_pos
  rw [show b.textPages + m - 1 = b.textPages - 1 + m by omega, tablesBehind_add, Nat.add_assoc]

/-- The code is entered in an empty table. -/
theorem vmMmap_text (hfit : b.textPages ≤ pagesAbove) (hx : x.Ok) (ht : x.IsTable 2 t)
    (href : x.refused = false) (hnone : ∀ w < tableSpan, x.leaf 2 t w = none)
    (hroom : (2 + tablesBehind (3 * 2 ^ 24) (b.textPages - 1)) * pageSize ≤ x.sizeFree) :
    ∃ y, x.vmMmap t b.text.va b.text.pa b.text.size b.text.prot = (0, t, y) ∧ Step x y 2 t ∧
      Mapped x y t (position 2 b.text.va) (b.text.size / pageSize) b.text.pa b.text.prot ∧
      Room x y (2 + tablesBehind (3 * 2 ^ 24) (b.textPages - 1)) := by
  have hpos := b.textPages_pos
  have hsize : b.text.size / pageSize = b.textPages - 1 + 1 := by
    rw [Nat.sub_add_cancel hpos]
    exact b.text_pages
  have hrange := range_le (b.text_vaEnd_le hfit) (Nat.mul_pos hpos (by decide))
  have hfree : ¬ Occupied (x.leaf 2 t) b.text.va b.text.size := by
    rintro ⟨i, hi, pte, hpte, -⟩
    rw [hnone _ (by omega)] at hpte
    cases hpte
  rw [← b.text_position] at hroom ⊢
  exact vmMmap_enters _ _ _ _ hx ht href b.text_va_aligned b.text_pa_aligned b.text_size_aligned
    hsize (b.text_vaEnd_le hfit) hfree (missing_le _ _ _ _) hroom

/-- Behind the code nothing is entered, and the tables of its last page are there. -/
theorem behind_text (hfit : b.textPages < pagesAbove)
    (hnone : ∀ w < tableSpan, x₁.leaf 2 t w = none)
    (htext : Mapped x₁ x t (position 2 b.text.va) (b.text.size / pageSize) b.text.pa b.text.prot) :
    (∀ i < pagesAbove - b.textPages, ¬ x.ValidAt 2 t (3 * 2 ^ 24 + b.textPages + i)) ∧
      x.missing 2 t (3 * 2 ^ 24 + b.textPages) ≤
        tablesBehind (3 * 2 ^ 24 + (b.textPages - 1)) 1 := by
  have hpos := b.textPages_pos
  have hspan : tableSpan = 3 * 2 ^ 24 + pagesAbove := tableSpan_eq
  have htextPos := b.text_position
  have htextPages := b.text_pages
  refine ⟨fun i hi hval => ?_, ?_⟩
  · have hw : 3 * 2 ^ 24 + b.textPages + i < tableSpan := by omega
    obtain ⟨pte, hpte, -⟩ := (htext.rest _ hw (.inr (by omega))).validAt_iff.1 hval
    rw [hnone _ hw] at hpte
    cases hpte
  · have hlast : x.leaf 2 t (3 * 2 ^ 24 + (b.textPages - 1)) ≠ none := by
      have hentry := htext.entry (b.textPages - 1) (by omega)
      rw [htextPos] at hentry
      rw [hentry]
      exact Option.some_ne_none _
    rw [show 3 * 2 ^ 24 + b.textPages = 3 * 2 ^ 24 + (b.textPages - 1) + 1 by omega]
    exact missing_next hlast

/-- The data is entered behind the code. -/
theorem vmMmap_data (hfit : b.pageNums ≤ pagesAbove) (hx : x.Ok) (ht : x.IsTable 2 t)
    (href : x.refused = false) (hnone : ∀ w < tableSpan, x₁.leaf 2 t w = none)
    (htext : Mapped x₁ x t (position 2 b.text.va) (b.text.size / pageSize) b.text.pa b.text.prot)
    (hroom : tablesBehind (3 * 2 ^ 24 + (b.textPages - 1)) (b.pageNums - b.textPages) * pageSize ≤
      x.sizeFree) :
    ∃ y, x.vmMmap t b.data.va b.data.pa b.data.size b.data.prot = (0, t, y) ∧ Step x y 2 t ∧
      Mapped x y t (position 2 b.data.va) (b.data.size / pageSize) b.data.pa b.data.prot := by
  have h1 := b.textPages_pos
  have h2 := b.textPages_lt
  have hpos := b.data_position (h2.trans_le hfit)
  have hpages := b.data_pages
  obtain ⟨hfree, hmissing⟩ := b.behind_text (h2.trans_le hfit) hnone htext
  have hsize : b.data.size / pageSize = b.pageNums - b.textPages - 1 + 1 := by
    rw [Nat.sub_add_cancel (by omega)]
    exact hpages
  have hocc : ¬ Occupied (x.leaf 2 t) b.data.va b.data.size := by
    rintro ⟨i, hi, hval⟩
    rw [hpos] at hval
    exact hfree i (by omega) hval
  rw [show b.pageNums - b.textPages = 1 + (b.pageNums - b.textPages - 1) by omega,
    tablesBehind_add, show 3 * 2 ^ 24 + (b.textPages - 1) + 1 = 3 * 2 ^ 24 + b.textPages by omega,
    ← hpos] at hroom
  rw [← hpos] at hmissing
  obtain ⟨y, heq, hstep, hin, -⟩ := vmMmap_enters _ b.data.pa b.data.size b.data.prot hx ht href
    b.data_va_aligned b.data_pa_aligned b.data_size_aligned hsize (b.data_vaEnd_le hfit) hocc
    hmissing hroom
  exact ⟨y, heq, hstep, hin⟩

/-! ### A memory that Sv39 addresses -/

/-- `KERNEL_OFFSET` is where a table begins on both levels. -/
theorem tables_eq : b.tables = 1 + (2 + tablesBehind (3 * 2 ^ 24) (b.pageNums - 1)) := by
  have h := b.textPages_lt
  rw [tables, tablesBehind]
  omega

theorem pageNums_eq : b.pageNums = b.textPages + (b.pageNums - b.textPages) :=
  (Nat.add_sub_cancel' b.textPages_lt.le).symm

/-- What `setup_earlyvm` makes of it. -/
theorem setupEarlyvm_spec (hfit : b.pageNums ≤ pagesAbove) (hx : x.Ok) (href : x.refused = false)
    (hroom : b.tables * pageSize ≤ x.sizeFree) :
    ∃ root x', x.setupEarlyvm kernelOffset b.kernelStart b.seperateLine b.map.riscvMemoryPaEnd =
        some (root, x') ∧
      x'.IsTable 2 root ∧ x'.kernelPagetable = sv39Pgt2Satp root ∧
      ∀ va < 2 ^ 39, pageOf (x'.leaf 2 root (position 2 va)) = unionOf b.areas va := by
  -- the root, the code and the data
  rw [tables_eq] at hroom
  obtain ⟨root, x₁, halloc, htook, hsize⟩ := freememAllocPa_some hx
    ((Nat.le_mul_of_pos_left _ (by omega)).trans hroom)
  obtain ⟨htab₁, hnone⟩ := htook.root hx
  have href₁ : x₁.refused = false := htook.refused.trans href
  have hroom₁ := (show Room x x₁ 1 from ⟨htook.refused, by omega⟩).left hroom
  rw [pageNums_eq, tablesBehind_text] at hroom₁
  obtain ⟨x₂, htext, hstep₂, hin₂, hr₂⟩ := b.vmMmap_text (b.textPages_lt.le.trans hfit) htook.ok
    htab₁ href₁ hnone ((Nat.mul_le_mul_right _ (Nat.le_add_right _ _)).trans hroom₁)
  obtain ⟨x₃, hdata, hstep₃, hin₃⟩ := b.vmMmap_data hfit hstep₂.ok hstep₂.table
    (hr₂.refused.trans href₁) hnone hin₂ (hr₂.left hroom₁)
  refine ⟨root, { x₃ with kernelPagetable := sv39Pgt2Satp root }, ?_,
    ⟨hstep₃.table.tree, hstep₃.table.page⟩, rfl, fun va hva => ?_⟩
  · refine b.setupEarlyvm_iff.2 ⟨root, x₂, x₃, ?_, hdata, rfl⟩
    rw [vmMmap_null halloc htook.ne_zero b.text_va_aligned
      b.text_pa_aligned b.text_size_aligned]
    exact htext
  · exact b.translate_of_mapped hfit hnone hin₂ hin₃ hva

/-! ### A memory that goes on behind it -/

theorem advance_end {va v m : ℕ} (hv : position 2 va = v % tableSpan) (hend : v + m = tableSpan) :
    position 2 (advance va m) = 0 := by
  have hspan : 512 ^ (2 + 1) = tableSpan := rfl
  rw [position_advance le_rfl, hv, hspan, Nat.mod_add_mod, hend, Nat.mod_self]

/-- The rest of the code is entered from the first page on. -/
theorem text_wraps (hfit : pagesAbove < b.textPages) (hx : x.Ok) (ht : x.IsTable 2 t)
    (href : x.refused = false) (hnone : ∀ w < tableSpan, x.leaf 2 t w = none)
    (hroom : (2 + tablesBehind (3 * 2 ^ 24) (pagesAbove - 1) + 2) * pageSize ≤ x.sizeFree)
    (h : vmMmapLoop b.text.prot t b.textPages x b.text.va b.text.pa = (0, y)) :
    ∃ pa, y.leaf 2 t 0 = some (sv39Pa2PTE pa b.text.prot) := by
  have hspan : 3 * 2 ^ 24 + pagesAbove = tableSpan := tableSpan_eq.symm
  have hpos := b.text_position
  have hpa : b.text.pa < 2 ^ 64 := by
    have := b.text_paEnd_le
    omega
  rw [show b.textPages = pagesAbove + (b.textPages - pagesAbove - 1 + 1) by omega] at h
  have hfirst := loop_wraps hx ht href b.text_va_aligned b.text_pa_aligned
    (show kernelOffset < 2 ^ 64 by decide) hpa (fun _ => hpos) hspan
    (fun i hi hval => by
      obtain ⟨pte, hpte, -⟩ := hval
      rw [hnone _ (by omega)] at hpte
      cases hpte)
    (fun _ => Nat.add_le_add_right (missing_le x 2 t _) _) hroom (pteValid_pa2PTE.2 textProt.2.1) h
  rw [advance_end (hpos.trans (Nat.mod_eq_of_lt (by rw [← hspan]; decide)).symm) hspan] at hfirst
  exact ⟨_, hfirst⟩

/-- The rest of the data is entered from the first page on. -/
theorem data_wraps (hfit : b.textPages ≤ pagesAbove) (hend : pagesAbove < b.pageNums) (hx : x.Ok)
    (ht : x.IsTable 2 t) (href : x.refused = false)
    (hnone : ∀ w < tableSpan, x₁.leaf 2 t w = none)
    (htext : Mapped x₁ x t (position 2 b.text.va) (b.text.size / pageSize) b.text.pa b.text.prot)
    (hroom : (tablesBehind (3 * 2 ^ 24 + (b.textPages - 1)) (pagesAbove - b.textPages) + 2) *
      pageSize ≤ x.sizeFree)
    (h : vmMmapLoop b.data.prot t (b.pageNums - b.textPages) x b.data.va b.data.pa = (0, y)) :
    ∃ pa, y.leaf 2 t 0 = some (sv39Pa2PTE pa b.data.prot) := by
  have hspan : 3 * 2 ^ 24 + b.textPages + (pagesAbove - b.textPages) = tableSpan := by
    rw [Nat.add_assoc, Nat.add_sub_cancel' hfit]
    exact tableSpan_eq.symm
  have hva : b.data.va < 2 ^ 64 := by
    have := b.bounds
    rw [data_va, kernelOffset]
    omega
  have hpa : b.data.pa < 2 ^ 64 := by
    have := b.data_paEnd_le
    omega
  have hbehind := fun hm => b.behind_text (Nat.lt_of_sub_pos hm) hnone htext
  have htables : ∀ m, 0 < m → tablesBehind (3 * 2 ^ 24 + (b.textPages - 1)) m =
      tablesBehind (3 * 2 ^ 24 + (b.textPages - 1)) 1 +
        tablesBehind (3 * 2 ^ 24 + b.textPages) (m - 1) := by
    intro m hm
    have := b.textPages_pos
    rw [show m = 1 + (m - 1) by omega, tablesBehind_add, Nat.add_sub_cancel_left,
      show 3 * 2 ^ 24 + (b.textPages - 1) + 1 = 3 * 2 ^ 24 + b.textPages by omega]
  rw [show b.pageNums - b.textPages =
    pagesAbove - b.textPages + (b.pageNums - pagesAbove - 1 + 1) by omega] at h
  have hfirst := loop_wraps hx ht href b.data_va_aligned b.data_pa_aligned hva hpa
    (fun hm => b.data_position (Nat.lt_of_sub_pos hm)) hspan
    (fun i hi => (hbehind (by omega)).1 i hi)
    (fun hm => by
      rw [htables _ hm]
      exact Nat.add_le_add_right (hbehind hm).2 _)
    hroom (pteValid_pa2PTE.2 dataProt.2.1) h
  rw [advance_end b.data_position_mod hspan] at hfirst
  exact ⟨_, hfirst⟩

theorem loop_of_vmMmap {p va pa size flags : ℕ} (ht : t ≠ 0) (hva : va % pageSize = 0)
    (hpa : pa % pageSize = 0) (hsize : size % pageSize = 0)
    (h : x.vmMmap t va pa size flags = (0, p, y)) :
    t = p ∧ vmMmapLoop flags t (size / pageSize) x va pa = (0, y) := by
  rw [vmMmap_loop flags ht hva hpa hsize] at h
  obtain ⟨h1, h2⟩ := Prod.mk.inj h
  obtain ⟨h3, h4⟩ := Prod.mk.inj h2
  exact ⟨h3, Prod.ext h1 h4⟩

/-- When `setup_earlyvm` succeeds, page 0 is entered. -/
theorem page_zero (hend : pagesAbove < b.pageNums) (hx : x.Ok) (href : x.refused = false)
    (hroom : b.tables * pageSize ≤ x.sizeFree)
    (h : x.setupEarlyvm kernelOffset b.kernelStart b.seperateLine b.map.riscvMemoryPaEnd =
      some (root, x')) : pageOf (x'.leaf 2 root 0) ≠ none := by
  obtain ⟨p, y, z, htext, hdata, rfl⟩ := b.setupEarlyvm_iff.1 h
  have htables : 1 + (2 + tablesBehind (3 * 2 ^ 24) (pagesAbove - 1) + 2) ≤ b.tables := by
    rw [tables, tablesBehind]
    simp only [pagesAbove] at *
    omega
  replace hroom := (Nat.mul_le_mul_right pageSize htables).trans hroom
  obtain ⟨r, x₁, halloc, htook, hsize⟩ := freememAllocPa_some hx
    ((Nat.le_mul_of_pos_left _ (by omega)).trans hroom)
  obtain ⟨htab, hnone⟩ := htook.root hx
  have href₁ : x₁.refused = false := htook.refused.trans href
  have hroom₁ := (show Room x x₁ 1 from ⟨htook.refused, by omega⟩).left hroom
  rw [vmMmap_null halloc htook.ne_zero b.text_va_aligned b.text_pa_aligned b.text_size_aligned]
    at htext
  have hpage : ∀ {e : Option ℕ} {pa prot : ℕ}, prot % 16 ≠ 1 → prot % 2 = 1 →
      e = some (sv39Pa2PTE pa prot) → pageOf e ≠ none := by
    rintro _ pa prot h1 h2 rfl
    rw [pageOf_pa2PTE h1 h2]
    exact Option.some_ne_none _
  by_cases hM : b.textPages ≤ pagesAbove
  · -- the data goes on behind the end
    have hsplit := b.tablesBehind_text (pagesAbove - b.textPages)
    rw [Nat.add_sub_cancel' hM] at hsplit
    rw [hsplit, Nat.add_assoc] at hroom₁
    obtain ⟨y', heq, hstep, hin, hr⟩ := b.vmMmap_text hM htook.ok htab href₁ hnone
      ((Nat.mul_le_mul_right _ (Nat.le_add_right _ _)).trans hroom₁)
    rw [heq] at htext
    cases htext
    obtain ⟨rfl, hloop⟩ := loop_of_vmMmap htook.ne_zero b.data_va_aligned b.data_pa_aligned
      b.data_size_aligned hdata
    rw [data_pages] at hloop
    obtain ⟨pa, hleaf⟩ := b.data_wraps hM hend hstep.ok hstep.table (hr.refused.trans href₁) hnone
      hin (hr.left hroom₁) hloop
    exact hpage dataProt.1 dataProt.2.1 hleaf
  · -- the code does, and the data is entered behind it
    obtain ⟨rfl, hloop⟩ := loop_of_vmMmap htook.ne_zero b.text_va_aligned b.text_pa_aligned
      b.text_size_aligned htext
    obtain ⟨hstep, -⟩ := loop_keeps htook.ok htab b.text_va_aligned b.text_pa_aligned hloop
    rw [text_pages] at hloop
    obtain ⟨pa, hleaf⟩ := b.text_wraps (not_le.1 hM) htook.ok htab href₁ hnone hroom₁ hloop
    obtain ⟨rfl, hloop'⟩ := loop_of_vmMmap htook.ne_zero b.data_va_aligned b.data_pa_aligned
      b.data_size_aligned hdata
    have hkeep := (loop_keeps hstep.ok hstep.table b.data_va_aligned b.data_pa_aligned hloop').2 0
      (by rw [tableSpan_eq]; norm_num) _ hleaf (pteValid_pa2PTE.2 textProt.2.1)
    exact hpage textProt.1 textProt.2.1 hkeep

end KernelImage

/-! ### The two views of the kernel -/

/-- What `vm_module_init` records are the two areas, and the page table stays as it is. -/
theorem VmState.Boot.records {L : VmLayout} {A : VmEnv L} {y s : VmState A} {pgtable : ℕ}
    (h : y.Boot pgtable) (hs : y.vmModuleInit pgtable = .ok (0, s)) :
    (s.list s.kernVma).map s.areas = [kernelText L, kernelData L] ∧
      ∀ w, s.entry s.kernVma w = y.mem.leaf 2 pgtable w := by
  rcases h.init_cases with ⟨hne, -⟩ | ⟨_, _, -, -, hne, -⟩ | ⟨x₁, x₂, a, b, hr, heq⟩
  · exact absurd hs (hne s)
  · exact absurd hs (hne s)
  · rw [heq] at hs
    obtain rfl : x₂ = s := (Prod.mk.inj (Except.ok.inj hs)).2
    have hb := h.registered hr
    refine ⟨by rw [hb.list, List.map_cons, List.map_singleton, hb.text, hb.data], fun w => ?_⟩
    have hk : x₂.kernVma = y.kernVma := hr.data.frame.kernVma.trans hr.text.frame.kernVma
    rw [hk, hr.dataEntry, hr.textEntry]
    unfold VmState.entry VmState.root
    rw [VmState.Boot.withKern_vmas]
    rfl

namespace KernelImage

variable (b : KernelImage)

/-- The two views of the kernel are the same: what `setup_earlyvm` makes of the memory, with
`words` in it, and what `vm_module_init` records without entering anything. -/
structure Agrees (words : ℕ → ℕ → ℕ) (satp : ℕ) : Prop where
  table : ∃ root x', (b.early words satp).setupEarlyvm kernelOffset b.kernelStart b.seperateLine
      b.map.riscvMemoryPaEnd = some (root, x') ∧
    x'.IsTable 2 root ∧ x'.kernelPagetable = sv39Pgt2Satp root ∧
    ∀ va < 2 ^ 39, pageOf (x'.leaf 2 root (position 2 va)) = unionOf b.areas va
  recorded : ∀ (L : VmLayout) (A : VmEnv L) (y s : VmState A) (pgtable : ℕ), b.HasLayout L →
    y.Boot pgtable → y.vmModuleInit pgtable = .ok (0, s) →
    (s.list s.kernVma).map s.areas = b.areas ∧
      ∀ w, s.entry s.kernVma w = y.mem.leaf 2 pgtable w

theorem agrees_of_fits {words : ℕ → ℕ → ℕ} {satp : ℕ} (hfit : b.pageNums ≤ pagesAbove)
    (hzero : ∀ p, (b.early words satp).Free p → ∀ j < 512, words p j = 0)
    (hroom : b.tables * pageSize ≤ (b.early words satp).sizeFree) : b.Agrees words satp where
  table := b.setupEarlyvm_spec hfit (b.early_ok words satp hzero) rfl hroom
  recorded L A y s pgtable hL h hs := by
    rw [← hL.areas]
    exact h.records hs

/-- Page 0 is in no area. -/
theorem not_agrees {words : ℕ → ℕ → ℕ} {satp : ℕ} (hend : pagesAbove < b.pageNums)
    (hzero : ∀ p, (b.early words satp).Free p → ∀ j < 512, words p j = 0)
    (hroom : b.tables * pageSize ≤ (b.early words satp).sizeFree) : ¬ b.Agrees words satp := by
  rintro ⟨⟨root, x', hset, -, -, hsame⟩, -⟩
  have hpage := b.page_zero hend (b.early_ok words satp hzero) rfl hroom hset
  have hpos : position 2 0 = 0 := Nat.zero_mod _
  have htext : b.text.translate 0 = none := if_neg fun h =>
    absurd (show kernelOffset ≤ 0 from h.1) (by decide)
  have hdata : b.data.translate 0 = none := if_neg fun h => by
    have h1 : kernelOffset + b.textPages * pageSize ≤ 0 := h.1
    rw [kernelOffset] at h1
    omega
  have h0 := hsame 0 (by norm_num)
  rw [hpos, areas_eq, unionOf, List.findSome?_cons, htext, List.findSome?_cons, hdata] at h0
  exact hpage h0

/-- The default of `BUDDYSYSTEM_MAX_ORDER`. -/
def buddysystemMaxOrder : ℕ := 6

theorem kernelOffset_aligned : kernelOffset % pageSize = 0 := rfl

theorem kernelOffset_pos : 0 < kernelOffset := by decide

theorem buddysystemMaxOrder_pos : 0 < buddysystemMaxOrder := by decide

theorem buddysystemMaxOrder_le : buddysystemMaxOrder ≤ 31 := by decide

theorem paEnd_le : b.kernelStart + b.pageNums * pageSize ≤ 2 ^ 56 := by
  have h1 := b.start_lt
  have h2 := b.line_le
  have h3 := b.kernelEnd_lt
  have h4 := b.memoryEnd_le
  rw [pageNums_mul, memoryEnd]
  omega

theorem vaEnd_le (hfit : b.pageNums ≤ pagesAbove) :
    kernelOffset + b.pageNums * pageSize ≤ 2 ^ 39 := by
  rw [pagesAbove] at hfit
  simp only [kernelOffset, pageSize, pageOffset]
  omega

/-- The managed range of an image that Sv39 can address. -/
def layout (hfit : b.pageNums ≤ pagesAbove) (hstart : b.kernelStart ≤ kernelOffset) : VmLayout where
  maxOrder := buddysystemMaxOrder
  paStart := b.kernelStart
  vaStart := kernelOffset
  pageNums := b.pageNums
  seperate := b.textPages
  maxOrder_pos := buddysystemMaxOrder_pos
  maxOrder_le := buddysystemMaxOrder_le
  paStart_le := hstart
  paStart_aligned := b.kernelStart_aligned
  vaStart_aligned := kernelOffset_aligned
  pageNums_lt := hfit.trans_lt (by decide)
  vaEnd_lt := (b.vaEnd_le hfit).trans_lt (by norm_num)
  seperate_pos := b.textPages_pos
  seperate_lt := b.textPages_lt
  vaStart_pos := kernelOffset_pos
  paEnd_le := b.paEnd_le
  vaEnd_le := b.vaEnd_le hfit

theorem hasLayout (hfit : b.pageNums ≤ pagesAbove) (hstart : b.kernelStart ≤ kernelOffset) :
    b.HasLayout (b.layout hfit hstart) :=
  ⟨rfl, b.map_vaStart.symm, rfl, b.seperateVa_eq.symm⟩

end KernelImage

/-- With a free page that is zero for each table that the memory needs, the page table of the boot
code and the areas of the kernel agree if and only if the memory ends where Sv39 can still address
it. -/
theorem early_vm_agrees_iff (b : KernelImage) (words : ℕ → ℕ → ℕ) (satp : ℕ)
    (hzero : ∀ p, (b.early words satp).Free p → ∀ j < 512, words p j = 0)
    (hroom : b.tables * pageSize ≤ (b.early words satp).sizeFree) :
    b.Agrees words satp ↔ b.memoryEnd - b.kernelStart ≤ 2 ^ 39 - kernelOffset := by
  rw [← b.pagesAbove_le_iff]
  exact ⟨fun h => not_lt.1 fun hend => b.not_agrees hend hzero hroom h,
    fun hfit => b.agrees_of_fits hfit hzero hroom⟩

theorem board_aligned {size : ℕ} (hsize : size % pageSize = 0) :
    (0x80000000 + size) % pageSize = 0 :=
  (Nat.mul_add_mod pageSize 0x80000 size).trans hsize

/-- A kernel of 6 MiB with 2 MiB of code, at the beginning of a memory of this size. -/
def boardImage (size : ℕ) (hsize : size % pageSize = 0) (hlow : 0x800000 < size)
    (hhigh : size ≤ 2 ^ 55) : KernelImage where
  kernelStart := 0x80200000
  seperateLine := 0x80400000
  kernelEnd := 0x80800000
  address := 0x80000000
  size := size
  kernelStart_aligned := by decide
  seperateLine_aligned := by decide
  kernelEnd_aligned := by decide
  memoryEnd_aligned := board_aligned hsize
  start_lt := by decide
  line_le := by decide
  kernelEnd_lt := lt_add_of_tsub_lt_left hlow
  memoryEnd_le := (Nat.add_le_add_left hhigh _).trans (by norm_num)

/-- A page of the code and a page behind it in 16 GiB of memory, and a machine on which
`vm_module_init` succeeds. -/
theorem early_vm_agrees_iff_board :
    let b := boardImage 0x400000000 (by decide) (by decide) (by decide)
    ∃ (root : ℕ) (x' : EarlyMemory) (L : VmLayout) (A : VmEnv L) (s : VmState A),
      (b.early (fun _ _ => 0) 0).setupEarlyvm kernelOffset b.kernelStart
        b.seperateLine b.map.riscvMemoryPaEnd = some (root, x') ∧
      pageOf (x'.leaf 2 root (position 2 (kernelOffset + 0x1234))) =
        some (0x80201000, vmProtV ||| vmProtR ||| vmProtX) ∧
      pageOf (x'.leaf 2 root (position 2 (kernelOffset + 0x200000))) =
        some (0x80400000, vmProtV ||| vmProtR ||| vmProtW) ∧
      pageOf (x'.leaf 2 root (position 2 (kernelOffset - 1))) = none ∧
      b.HasLayout L ∧ (vmRuns A).init s ∧ (s.list s.kernVma).map s.areas = b.areas := by
  intro b
  have hfit : b.pageNums ≤ KernelImage.pagesAbove := by decide
  have hstart : b.kernelStart ≤ kernelOffset := by decide
  have hlarge : 2 ^ 20 < b.pageNums := by decide
  obtain ⟨⟨root, x', hset, -, -, hsame⟩, hrecord⟩ := (early_vm_agrees_iff b (fun _ _ => 0) 0
    (fun _ _ _ _ => rfl) (by decide)).2 (b.fits_of_test (by decide))
  set L := b.layout hfit hstart
  set P := buddyAllocator L.toLayout (.all _) L.vaStart_pos with hP
  have hA : (VmEnv.ofAllocator P).Ample :=
    VmEnv.ofAllocator_ample (buddyAllocator_ample (.all _) L.vaStart_pos)
  set y : VmState (VmEnv.ofAllocator P) :=
    { mem := ⟨(bootState L.toLayout (.all _) L.vaStart_pos,
        fun k => if k = .vma then {1} else ∅), fun _ => .handed 0, fun _ _ => 0⟩
      vmas := fun _ => .zero
      areas := fun _ => kernelText L
      kernVma := 1 } with hy
  have hcard : y.mem.freePages.ncard = L.pageNums := by
    rw [show y.mem.freePages = _ from bootState_freePages (.all L.toLayout) L.vaStart_pos]
    show (Set.Ico 0 (0 + L.pageNums)).ncard = _
    rw [Set.ncard_eq_toFinset_card', Set.toFinset_Ico, Nat.card_Ico, Nat.zero_add, Nat.sub_zero]
  obtain ⟨s, _, _, ⟨x, pgtable, hboot, hinit⟩, -⟩ := VmState.boots_booted hA (x := y) rfl rfl
    Nat.one_ne_zero (fun _ => rfl) (fun _ h => (nomatch h)) (by rw [hcard]; exact hlarge)
  refine ⟨root, x', L, _, s, hset, ?_, ?_, ?_, b.hasLayout hfit hstart, ⟨x, pgtable, hboot, hinit⟩,
    (hrecord L _ x s pgtable (b.hasLayout hfit hstart) hboot hinit).1⟩
  · rw [hsame _ (by decide)]
    decide
  · rw [hsame _ (by decide)]
    decide
  · rw [hsame _ (by decide)]
    decide

/-- In 384 GiB of memory there are enough pages for the tables, but the two do not agree. -/
theorem early_vm_disagrees : let b := boardImage 0x6000000000 (by decide) (by decide) (by decide)
    b.tables * pageSize ≤ (b.early (fun _ _ => 0) 0).sizeFree ∧ ¬ b.Agrees (fun _ _ => 0) 0 := by
  intro b
  have hroom : b.tables * pageSize ≤ (b.early (fun _ _ => 0) 0).sizeFree := by decide
  exact ⟨hroom, b.not_agrees (by decide) (fun _ _ _ _ => rfl) hroom⟩

end AcoOs
