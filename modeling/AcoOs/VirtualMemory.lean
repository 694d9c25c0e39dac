/-
The calls of `mm/vm.h`: `module/mm/vm/vm.c` and the start of the module.

A call ends with a value and a state, or an `ASSERT` stops the kernel; `VmAssert` tells
apart the ones this development has theorems about.  A pointer is an address, `NULL` is 0.
The calls run one after the other, so every lock is free when it is taken.
-/
import AcoOs.VmaArea

namespace AcoOs

variable {L : VmLayout}

/-- Which `ASSERT` failed: the one that `hw_mmap` did not return `-EEXIST`, those on the
block of a `VMA_MEMORY` area, the others of `vm.c`, or one in the functions it calls. -/
inductive VmAssert
  | eexist
  | block
  | argument
  | callee
  deriving DecidableEq, Repr

/-- An `ASSERT` in a function that `vm.c` calls. -/
def ofCallee {α : Type*} : Option α → Except VmAssert α
  | none => .error .callee
  | some a => .ok a

/-- `PROT_W`. -/
def protW : ℕ := 1 <<< 2

/-- `(phyaddr_t)-1`: the physical address of an area that is not backed yet. -/
def paLazy : ℕ := 2 ^ 64 - 1

/-- `PAGE_UPPER_ALIGN`. -/
def pageUpperAlign (x : ℕ) : ℕ := (x + (pageSize - 1)) % 2 ^ 64 / pageSize * pageSize

/-- The loop of `PGNUM2ORDER`, after `n` iterations: `flag` and `ret`, unless it returned. -/
def pgnum2orderLoop (pgnum : ℤ) : ℕ → Option (Bool × ℤ)
  | 0 => some (false, 0)
  | n + 1 =>
    match pgnum2orderLoop pgnum n with
    | none => none
    | some (flag, ret) =>
      if pgnum.toNat &&& 1 <<< n ≠ 0 then
        if flag then none else some (true, n)
      else some (flag, ret)

/-- `PGNUM2ORDER`. -/
def pgnum2order (maxOrder : ℕ) (pgnum : ℤ) : ℤ :=
  if pgnum ≤ 0 then -1
  else
    match pgnum2orderLoop pgnum maxOrder with
    | none => -1
    | some (_, ret) => ret

namespace VmState

variable {A : VmEnv L}

/-- The descriptor of a page. -/
def setPage (x : VmState A) (pgfm : ℕ) (pg : Pageframe) : VmState A :=
  { x with mem := { x.mem with pages := Function.update x.mem.pages pgfm pg } }

/-- What the callbacks assert of the block of an area: it is a block for areas, of the
size of the area. -/
def BlockOk (x : VmState A) (pgfm : ℕ) (area : VmaArea) : Prop :=
  (x.mem.pages pgfm).pgtype = .vmaArea ∧ (x.mem.pages pgfm).buddyFlags = flagHead ∧
    1 <<< (x.mem.pages pgfm).buddyOrder * pageSize = area.size

instance (x : VmState A) (pgfm : ℕ) (area : VmaArea) : Decidable (x.BlockOk pgfm area) :=
  inferInstanceAs (Decidable (_ ∧ _))

/-! ### Mapping an area -/

/-- `hw_mmap` of an area into the page table of an address space. -/
def hwMmapArea (x : VmState A) (vma : ℕ) (area : VmaArea) : Except VmAssert (ℤ × VmState A) :=
  match (x.vmas vma).hwPgtable with
  | none => .error .callee
  | some pgtable =>
    match x.mem.hwMmap pgtable area.va area.pa area.prot area.size with
    | none => .error .callee
    | some (ret, mem) => .ok (ret, { x with mem := mem })

/-- `mmap_kernel_io_hw_cb`. -/
def mmapKernelIoHwCb (x : VmState A) (vma vmaArea : ℕ) : Except VmAssert (ℤ × VmState A) :=
  match x.hwMmapArea vma (x.areas vmaArea) with
  | .error e => .error e
  | .ok (ret, x) => if ret ≠ -eexist then .ok (ret, x) else .error .eexist

/-- `mmap_memory_cb`. -/
def mmapMemoryCb (x : VmState A) (vma vmaArea : ℕ) : Except VmAssert (ℤ × VmState A) :=
  if (x.areas vmaArea).pgfm = none then
    -- nothing is entered for an area that is not backed yet
    if (x.areas vmaArea).pa = paLazy then .ok (0, x)
    else if L.paValid (x.areas vmaArea).pa then
      match x.hwMmapArea vma (x.areas vmaArea) with
      | .error e => .error e
      | .ok (ret, x) =>
        if ret ≠ -eexist then
          if ret ≠ 0 then .ok (ret, x)
          else
            let pgfm := L.pa2pg (x.areas vmaArea).pa
            if x.BlockOk pgfm (x.areas vmaArea) then
              let x := x.setPage pgfm
                { x.mem.pages pgfm with refCount := (x.mem.pages pgfm).refCount + 1 }
              .ok (0, x.setArea vmaArea { x.areas vmaArea with pgfm := some pgfm })
            else .error .block
        else .error .eexist
    else .error .block
  else .error .block

/-- `hw_map_callbacks`. -/
def hwMapCallbacks : VmarType → VmState A → ℕ → ℕ → Except VmAssert (ℤ × VmState A)
  | .kernel => mmapKernelIoHwCb
  | .io => mmapKernelIoHwCb
  | .memory => mmapMemoryCb

/-- The label `free_vma_area` of `__vm_mmap`. -/
def freeVmaArea (x : VmState A) (vmaArea : ℕ) (ret : ℤ) : Except VmAssert (ℤ × VmState A) :=
  match x.objFree .vmaArea vmaArea with
  | none => .error .callee
  | some x => .ok (ret, x)

/-- `__vm_mmap`, with an area object in hand. -/
def mmapArea (x : VmState A) (vma vmaArea : ℕ) (typ : VmarType) (needHwmap : Bool) :
    Except VmAssert (ℤ × VmState A) :=
  match x.vmaAreaHang vma vmaArea with
  | (ret, x) =>
    -- an area in the way: nothing was hung
    if ret ≠ 0 then x.freeVmaArea vmaArea ret
    else if needHwmap then
      match hwMapCallbacks typ x vma vmaArea with
      | .error e => .error e
      | .ok (ret, x) =>
        if ret ≠ 0 then (x.vmaAreaUnhang vma vmaArea).freeVmaArea vmaArea ret
        else .ok (0, x)
    else .ok (0, x)

/-- `__vm_mmap`. -/
def vmMmapInternal (x : VmState A) (vma va pa prot size : ℕ) (typ : VmarType)
    (needHwmap : Bool) : Except VmAssert (ℤ × VmState A) :=
  if vma ≠ 0 ∧ 0 < size ∧ va % pageSize = 0 ∧ pa % pageSize = 0 ∧ size % pageSize = 0 then
    match x.objAlloc .vmaArea with
    | (none, x) => .ok (-enobufs, x)
    | (some vmaArea, x) =>
      (x.setArea vmaArea ⟨typ, va, size, pa, none, prot⟩).mmapArea vma vmaArea typ needHwmap
  else .error .argument

/-! ### Unmapping an area -/

/-- `find_compare`; its last two tests both send the search to the left. -/
def findCompare (va size : ℕ) (haveNode : VmaArea) : ℤ :=
  if va = haveNode.va ∧ size = haveNode.size then 0
  else if haveNode.vaEnd ≤ va then 1
  else -1

/-- `hw_unmap` of an area from the page table of an address space. -/
def hwUnmapArea (x : VmState A) (vma : ℕ) (area : VmaArea) : Except VmAssert (VmState A) :=
  match (x.vmas vma).hwPgtable with
  | none => .error .callee
  | some pgtable =>
    match x.mem.hwUnmap pgtable area.va area.size with
    | none => .error .callee
    | some mem => .ok { x with mem := mem }

/-- `hw_unmap_kernel_io`. -/
def hwUnmapKernelIo (x : VmState A) (vma vmaArea : ℕ) : Except VmAssert (VmState A) :=
  x.hwUnmapArea vma (x.areas vmaArea)

/-- `unmmap_memory_cb` up to the call of `hw_unmap`: a reference to the block is dropped, and the
block is freed with the last one.  The count is an `int`, which goes from 0 to -1. -/
def dropBlock (x : VmState A) (pgfm vmaArea : ℕ) : Except VmAssert (VmState A) :=
  if x.BlockOk pgfm (x.areas vmaArea) then
    let pg : Pageframe := { x.mem.pages pgfm with refCount := (x.mem.pages pgfm).refCount - 1 }
    -- the block is free before its pages are out of the page table
    if pg.refCount = 0 then
      match (x.setPage pgfm { pg with pgtype := .buddyAllocator }).mem.bkpFree pgfm with
      | none => .error .callee
      | some mem => .ok ({ x with mem := mem }.setArea vmaArea
          { x.areas vmaArea with pgfm := none })
    else .ok ((x.setPage pgfm pg).setArea vmaArea { x.areas vmaArea with pgfm := none })
  else .error .block

/-- `unmmap_memory_cb`. -/
def unmmapMemoryCb (x : VmState A) (vma vmaArea : ℕ) : Except VmAssert (VmState A) :=
  if (x.areas vmaArea).pa = paLazy then
    if (x.areas vmaArea).pgfm = none then .ok x else .error .block
  else
    match (x.areas vmaArea).pgfm with
    | none => .error .block
    | some pgfm =>
      match x.dropBlock pgfm vmaArea with
      | .error e => .error e
      | .ok x => x.hwUnmapArea vma (x.areas vmaArea)

/-- `hw_unmap_callbacks`. -/
def hwUnmapCallbacks : VmarType → VmState A → ℕ → ℕ → Except VmAssert (VmState A)
  | .kernel => hwUnmapKernelIo
  | .io => hwUnmapKernelIo
  | .memory => unmmapMemoryCb

/-- `avl_node_find` of the area with a given range. -/
def findArea (x : VmState A) (vma va size : ℕ) : Option ℕ :=
  (x.vmas vma).aRoot.find fun node => findCompare va size (x.areas node)

/-- The end of `__vm_unmap` and the body of the loop of `vma_free`: unhang an area, undo
its mapping and free the object. -/
def removeArea (x : VmState A) (vma vmaArea : ℕ) (typ : VmarType) : Except VmAssert (VmState A) :=
  match hwUnmapCallbacks typ (x.vmaAreaUnhang vma vmaArea) vma vmaArea with
  | .error e => .error e
  | .ok x => ofCallee (x.objFree .vmaArea vmaArea)

/-- `__vm_unmap`; every caller sets `need_hwunmap`. -/
def vmUnmapInternal (x : VmState A) (vma va size : ℕ) (typ : VmarType) :
    Except VmAssert (ℤ × VmState A) :=
  if vma ≠ 0 ∧ 0 < size ∧ va % pageSize = 0 ∧ size % pageSize = 0 then
    match x.findArea vma va size with
    | none => .ok (-enobufs, x)
    | some vmaArea =>
      if (x.areas vmaArea).va = va ∧ (x.areas vmaArea).size = size then
        if (x.areas vmaArea).vmarTyp ≠ typ then .ok (-eperm, x)
        else
          match x.removeArea vma vmaArea typ with
          | .error e => .error e
          | .ok x => .ok (0, x)
      else .error .argument
  else .error .argument

/-! ### The calls of `mm/vm.h` -/

/-- `vm_iomap`. -/
def vmIomap (x : VmState A) (vma va pa prot size : ℕ) : Except VmAssert (ℤ × VmState A) :=
  if ¬ (L.vaEnd ≤ va ∨ (va + size) % 2 ^ 64 ≤ L.vaStart) then .ok (-eperm, x)
  else if ¬ (L.paEnd ≤ pa ∨ (pa + size) % 2 ^ 64 ≤ L.paStart) then .ok (-eperm, x)
  else if vma = 0 then .ok (-efault, x)
  else if ¬ va % pageSize = pa % pageSize ∨ size = 0 then .ok (-efault, x)
  else if va % pageSize ≠ 0 then .ok (-efault, x)
  else x.vmMmapInternal vma va pa prot (pageUpperAlign size) .io true

/-- `vm_iounmap`. -/
def vmIounmap (x : VmState A) (vma va size : ℕ) : Except VmAssert (ℤ × VmState A) :=
  if ¬ (L.vaEnd ≤ va ∨ (va + size) % 2 ^ 64 ≤ L.vaStart) then .ok (-eperm, x)
  else if vma = 0 then .ok (-efault, x)
  else if va % pageSize ≠ 0 then .ok (-efault, x)
  else x.vmUnmapInternal vma va (pageUpperAlign size) .io

/-- `bkp_alloc_zero`. -/
def bkpAllocZero (x : VmState A) (order : ℤ) : Option ℕ × VmState A :=
  ((x.mem.bkpAllocZero order).1, { x with mem := (x.mem.bkpAllocZero order).2 })

/-- A new block becomes one for areas, without a reference yet. -/
def claimBlock (x : VmState A) (pgfm : ℕ) (order : ℤ) : Except VmAssert (VmState A) :=
  if ((x.mem.pages pgfm).buddyOrder : ℤ) = order ∧ (x.mem.pages pgfm).buddyFlags = flagHead ∧
      (x.mem.pages pgfm).pgtype = .buddyAllocator then
    .ok (x.setPage pgfm { x.mem.pages pgfm with pgtype := .vmaArea, refCount := 0 })
  else .error .argument

/-- A block that was not mapped after all goes back to the buddy allocator. -/
def returnBlock (x : VmState A) (pgfm : ℕ) : Except VmAssert (VmState A) :=
  match (x.setPage pgfm { x.mem.pages pgfm with
      pgtype := .buddyAllocator, refCount := 0 }).mem.bkpFree pgfm with
  | none => .error .callee
  | some mem => .ok { x with mem := mem }

/-- `vm_mmap`. -/
def vmMmap (x : VmState A) (vma va : ℕ) (order : ℤ) (prot : ℕ) :
    Except VmAssert (ℤ × VmState A) :=
  if vma = 0 ∨ va % pageSize ≠ 0 ∨ ¬ (0 ≤ order ∧ order < L.maxOrder) then .ok (-efault, x)
  else
    match x.bkpAllocZero order with
    | (none, x) => .ok (-enomem, x)
    | (some pgfm, x) =>
      match x.claimBlock pgfm order with
      | .error e => .error e
      | .ok x =>
        match x.vmMmapInternal vma va (L.pg2pa pgfm) prot (1 <<< order.toNat * pageSize)
            .memory true with
        | .error e => .error e
        | .ok (ret, x) =>
          -- no area refers to the block
          if ret ≠ 0 then
            match x.returnBlock pgfm with
            | .error e => .error e
            | .ok x => .ok (ret, x)
          else .ok (0, x)

/-- `vm_unmap`. -/
def vmUnmap (x : VmState A) (vma va : ℕ) (order : ℤ) : Except VmAssert (ℤ × VmState A) :=
  if vma = 0 ∨ va % pageSize ≠ 0 ∨ (x.vmas vma).kernelVma ≠ x.kernVma ∨
      ¬ (0 ≤ order ∧ order < L.maxOrder) then .ok (-efault, x)
  else x.vmUnmapInternal vma va (1 <<< order.toNat * pageSize) .memory

/-- The loop of `vma_free` over the list. -/
def freeAreas (x : VmState A) (vma : ℕ) : List ℕ → Except VmAssert (VmState A)
  | [] => .ok x
  | vmaArea :: areas =>
    match x.removeArea vma vmaArea (x.areas vmaArea).vmarTyp with
    | .error e => .error e
    | .ok x => freeAreas x vma areas

/-- `hw_unmap_all` of the page table of an address space. -/
def hwUnmapAll (x : VmState A) (vma : ℕ) : Except VmAssert (VmState A) :=
  match (x.vmas vma).hwPgtable with
  | none => .error .callee
  | some pgtable =>
    match x.mem.hwUnmapAll pgtable with
    | none => .error .callee
    | some mem => .ok { x with mem := mem }

/-- `vma_free`. -/
def vmaFree (x : VmState A) (vma : ℕ) : Except VmAssert (VmState A) :=
  if vma = 0 then .ok x
  else if vma = x.kernVma then .ok x
  else if (x.vmas vma).kernelVma ≠ x.kernVma then .ok x
  else
    match x.freeAreas vma (x.vmas vma).lList with
    | .error e => .error e
    | .ok x =>
      match x.hwUnmapAll vma with
      | .error e => .error e
      -- the page of the root is not freed
      | .ok x => ofCallee ((x.setVma vma .zero).objFree .vma vma)

/-- `__vm_mmap` of the copy of an area in `vma_dup`: `true` when it was mapped. -/
def copyArea (x : VmState A) (vma : ℕ) (area : VmaArea) (pa : ℕ) :
    Except VmAssert (Bool × VmState A) :=
  match x.vmMmapInternal vma area.va pa area.prot area.size area.vmarTyp true with
  | .error e => .error e
  | .ok (ret, x) => .ok (ret = 0, x)

/-- A copy with a new block. -/
def copyBlock (x : VmState A) (vma : ℕ) (area : VmaArea) (wantOrder : ℤ) :
    Except VmAssert (Bool × VmState A) :=
  match x.bkpAllocZero wantOrder with
  | (none, x) => .ok (false, x)
  | (some pgfm, x) =>
    match x.claimBlock pgfm wantOrder with
    | .error e => .error e
    | .ok x =>
      match x.copyArea vma area (L.pg2pa pgfm) with
      | .error e => .error e
      | .ok (true, x) => .ok (true, x)
      -- the copy was refused, so nothing refers to the block
      | .ok (false, x) =>
        match (x.setPage pgfm
            { x.mem.pages pgfm with pgtype := .buddyAllocator }).mem.bkpFree pgfm with
        | none => .error .callee
        | some mem => .ok (false, { x with mem := mem })

/-- What the loop of `vma_dup` does with one area: `true` when it was copied. -/
def dupArea (x : VmState A) (vma : ℕ) (area : VmaArea) : Except VmAssert (Bool × VmState A) :=
  match area.vmarTyp with
  | .memory =>
    if area.va % pageSize = 0 ∧ area.size % pageSize = 0 ∧ 0 < area.size then
      if area.pa = paLazy then
        if area.pgfm = none then x.copyArea vma area area.pa else .error .argument
      else if area.pgfm ≠ none then
        -- what may be written is not shared
        if area.prot &&& protW ≠ 0 then
          let wantOrder := pgnum2order L.maxOrder (toInt32 (area.size / pageSize))
          if 0 ≤ wantOrder then x.copyBlock vma area wantOrder else .error .argument
        else x.copyArea vma area area.pa
      else .error .argument
    else .error .argument
  | _ =>
    if area.va % pageSize = 0 ∧ area.pa % pageSize = 0 ∧ area.size % pageSize = 0 ∧
        0 < area.size ∧ area.pgfm = none then
      x.copyArea vma area area.pa
    else .error .argument

/-- The loop of `vma_dup` over the list of the address space that is copied. -/
def dupAreas (x : VmState A) (vma : ℕ) : List ℕ → Except VmAssert (Bool × VmState A)
  | [] => .ok (true, x)
  | vmaArea :: areas =>
    match x.dupArea vma (x.areas vmaArea) with
    | .error e => .error e
    | .ok (false, x) => .ok (false, x)
    | .ok (true, x) => dupAreas x vma areas

/-- `vma_dup`. -/
def vmaDup (x : VmState A) (vmaCopied : ℕ) : Except VmAssert (ℕ × VmState A) :=
  if vmaCopied = 0 ∨ (x.vmas vmaCopied).kernelVma ≠ x.kernVma ∨
      (x.vmas vmaCopied).hwPgtable = none then .ok (0, x)
  else
    match x.objAlloc .vma with
    | (none, x) => .ok (0, x)
    | (some ret, x) =>
      if (x.vmas ret).hwPgtable = none ∧ (x.vmas ret).kernelVma = 0 then
        match x.bkpAllocZero 0 with
        -- no page for the root
        | (none, x) =>
          match x.objFree .vma ret with
          | none => .error .callee
          | some x => .ok (0, x)
        | (some pg, x) =>
          match (x.setVma ret ⟨some pg, x.kernVma, .nil, []⟩).dupAreas ret
              (x.vmas vmaCopied).lList with
          | .error e => .error e
          | .ok (true, x) => .ok (ret, x)
          | .ok (false, x) =>
            -- the copies made so far are freed with the address space
            match x.vmaFree ret with
            | .error e => .error e
            | .ok x => .ok (0, x)
      else .error .argument

/-- `vma_alloc`. -/
def vmaAlloc (x : VmState A) : Except VmAssert (ℕ × VmState A) := x.vmaDup x.kernVma

/-- The loop of `vm_check`; `bef` is `(viraddr_t)-1` until the first area. -/
def vmCheckLoop (x : VmState A) (vma : ℕ) (bef size : ℕ) : List ℕ → ℤ
  | [] => 0
  | vmaArea :: areas =>
    let area := x.areas vmaArea
    if ¬ (area.va % pageSize = 0 ∧ area.pa % pageSize = 0 ∧ area.size % pageSize = 0 ∧
        0 < area.size) then -efault
    else if area.vmarTyp ≠ .memory ∧ area.pgfm ≠ none then -efault
    else if area.prot &&& vmProtV = 0 then -efault
    else if bef ≠ 2 ^ 64 - 1 ∧ ¬ (bef + size) % 2 ^ 64 ≤ area.va then -efault
    else if x.findArea vma area.va area.size ≠ some vmaArea then -efault
    else vmCheckLoop x vma area.va area.size areas

/-- `vm_check`. -/
def vmCheck (x : VmState A) (vma : ℕ) : ℤ :=
  if vma = 0 then -efault
  else if (x.vmas vma).hwPgtable = none then -efault
  else if (x.vmas vma).kernelVma ≠ x.kernVma then -efault
  else x.vmCheckLoop vma (2 ^ 64 - 1) (2 ^ 64 - 1) (x.vmas vma).lList

/-! ### `vm_module_init` -/

/-- The address of the separate line of the linker script. -/
def seperateLine (L : VmLayout) : ℕ := L.vaStart + L.seperate * pageSize

/-- `vm_module_init` from the point where both caches are set up and `kern_vma` has been
allocated; `pgtable` is the page table that the boot code left in `satp`. -/
def vmModuleInit (x : VmState A) (pgtable : ℕ) : Except VmAssert (ℤ × VmState A) :=
  let x := x.setVma x.kernVma ⟨some pgtable, x.kernVma, .nil, []⟩
  let seperateSize := seperateLine L - L.vaStart
  -- the boot code has entered both ranges, so only the areas are made
  match x.vmMmapInternal x.kernVma L.vaStart L.paStart (vmProtV ||| vmProtX ||| vmProtR)
      seperateSize .kernel false with
  | .error e => .error e
  | .ok (ret, x) =>
    if ret < 0 then
      match x.vmaFree x.kernVma with
      | .error e => .error e
      | .ok x => .ok (ret, x)
    else
      match x.vmMmapInternal x.kernVma (L.vaStart + seperateSize) (L.paStart + seperateSize)
          (vmProtV ||| vmProtW ||| vmProtR) (L.pageNums * pageSize - seperateSize) .kernel
          false with
      | .error e => .error e
      | .ok (ret, x) =>
        if ret < 0 then
          match x.vmaFree x.kernVma with
          | .error e => .error e
          | .ok x => .ok (ret, x)
        else .ok (x.vmCheck x.kernVma, x)

end VmState

end AcoOs
