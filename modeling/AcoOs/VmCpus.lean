/-
The calls on address spaces made by any number of CPUs at once.

A CPU is a program counter inside a call with the local variables of the call.  Each call of the
buddy allocator, of a slab cache, of `hw_mmap` or of `hw_unmap`, and each section under the lock of
a descriptor, is one step (`VmPc.advance`), and the steps of the CPUs interleave in any order.
The lock of an address space is held from one step to another: `VmPc.writes` and `VmPc.reads` say
which lock a CPU holds, and a step that takes a lock waits until nobody is in its way.  A CPU whose
`ASSERT` fails spins where it is, so that it has no next step.

* **`vmCpus`** — the system; besides the calls, a CPU may take blocks and give them back;
* **`VmCpus.Exposed`** — a page has a valid entry from an area that is being removed.
-/
import AcoOs.VmReferences

namespace AcoOs

open Memory Machine VmState

variable {L : VmLayout} {A : VmEnv L}

/-! ### A CPU inside a call -/

/-- Who calls `__vm_mmap`: `vm_mmap` or `vm_iomap`, or `vma_dup` while it reads the list of `u`, of
which `rest` is left. -/
inductive VmCaller
  | mmap
  | dup (u : ℕ) (rest : List ℕ)
  deriving DecidableEq

/-- The address space whose list is being read. -/
def VmCaller.source : VmCaller → Option ℕ
  | mmap => none
  | dup u _ => some u

/-- Where a CPU is.  `v` is the address space it works on and `own` the block that the call has
taken; `whole` tells `vma_free` from `vm_unmap`. -/
inductive VmPc
  | idle
  -- `vma_dup`
  | made (u v : ℕ)
  | unmade (v : ℕ)
  | opened (u v : ℕ)
  | copying (u v : ℕ) (rest : List ℕ)
  -- `vm_mmap`, `vm_iomap` and `vma_dup`: a block, and `__vm_mmap`
  | taken (caller : VmCaller) (v : ℕ) (area : VmaArea) (pgfm : ℕ) (order : ℤ)
  | adding (caller : VmCaller) (v : ℕ) (area : VmaArea) (own : Option ℕ)
  | hanging (caller : VmCaller) (v vmaArea : ℕ) (own : Option ℕ)
  | hung (caller : VmCaller) (v vmaArea : ℕ) (own : Option ℕ)
  | entered (caller : VmCaller) (v vmaArea : ℕ) (own : Option ℕ) (ret : ℤ)
  | discarding (caller : VmCaller) (v vmaArea : ℕ) (own : Option ℕ)
  | failed (caller : VmCaller) (v : ℕ) (own : Option ℕ)
  | returned (caller : VmCaller) (v pgfm : ℕ)
  -- `vm_unmap`, `vm_iounmap` and `vma_free`
  | emptying (v : ℕ)
  | unhung (whole : Bool) (v vmaArea : ℕ)
  | freeing (whole : Bool) (v vmaArea pgfm : ℕ)
  | clearing (whole : Bool) (v vmaArea : ℕ)
  | cleared (whole : Bool) (v vmaArea : ℕ)
  | closing (v : ℕ)
  deriving DecidableEq

namespace VmCaller

/-- Where a call goes on when `__vm_mmap` has succeeded. -/
def done (v : ℕ) : VmCaller → VmPc
  | mmap => .idle
  | dup u rest => .copying u v rest

/-- Where a call goes on when `__vm_mmap` has failed and the block is given back: `vma_dup` frees
what it has made. -/
def refused (v : ℕ) : VmCaller → VmPc
  | mmap => .idle
  | dup _ _ => .emptying v

end VmCaller

namespace VmPc

/-- The address space whose lock is held by `r_lock`. -/
def reads : VmPc → Option ℕ
  | copying u _ _ => some u
  | taken c _ _ _ _ | adding c _ _ _ | hanging c _ _ _ | hung c _ _ _ | entered c _ _ _ _
  | discarding c _ _ _ | failed c _ _ | returned c _ _ => c.source
  | _ => none

/-- The address space whose lock is held by `w_lock_br`. -/
def writes : VmPc → Option ℕ
  | hung _ v _ _ | entered _ v _ _ _ | discarding _ v _ _ | emptying v | unhung _ v _
  | freeing _ v _ _ | clearing _ v _ | cleared _ v _ => some v
  | _ => none

/-- The address spaces a call is about. -/
def spaces : VmPc → List ℕ
  | idle => []
  | made u v | opened u v | copying u v _ => [u, v]
  | taken c v _ _ _ | adding c v _ _ | hanging c v _ _ | hung c v _ _ | entered c v _ _ _
  | discarding c v _ _ | failed c v _ | returned c v _ => v :: c.source.toList
  | unmade v | emptying v | unhung _ v _ | freeing _ v _ _ | clearing _ v _ | cleared _ v _
  | closing v => [v]

/-- The address space that only this CPU knows, because it is being made or freed. -/
def owns : VmPc → Option ℕ
  | made _ v | unmade v | opened _ v | copying _ v _ | emptying v | closing v => some v
  | taken c v _ _ _ | adding c v _ _ | hanging c v _ _ | hung c v _ _ | entered c v _ _ _
  | discarding c v _ _ | failed c v _ | returned c v _ => c.source.map fun _ => v
  | unhung whole v _ | freeing whole v _ _ | clearing whole v _ | cleared whole v _ =>
    if whole then some v else none
  | idle => none

/-- Two CPUs may be there at the same time: a writer is alone with an address space, and the others
do not know of one that is being made or freed. -/
structure Compatible (pc pc' : VmPc) : Prop where
  write : ∀ v, pc.writes = some v → pc'.writes ≠ some v
  read : ∀ v, pc.writes = some v → pc'.reads ≠ some v
  owns : ∀ v, pc.owns = some v → v ∉ pc'.spaces

/-! ### The steps -/

variable (x : VmState A)

instance (v va pa size : ℕ) : Decidable (IomapAccepts L v va pa size) :=
  inferInstanceAs (Decidable (_ ∧ _))

/-- What `vma_dup` does next: it takes a block for the copy of an area that can be written, and
calls `__vm_mmap`. -/
def copyNext (u v b : ℕ) (rest : List ℕ) : Option (VmState A × VmPc) :=
  let area := x.areas b
  match area.vmarTyp with
  | .memory =>
    if area.va % pageSize = 0 ∧ area.size % pageSize = 0 ∧ 0 < area.size then
      if area.pa = paLazy then
        -- lazy allocation: there are no pages yet
        if area.pgfm = none then some (x, adding (.dup u rest) v area none) else none
      else if area.pgfm ≠ none then
        if area.prot &&& protW ≠ 0 then
          -- what can be written is not shared
          let wantOrder := pgnum2order L.maxOrder (toInt32 (area.size / pageSize))
          if 0 ≤ wantOrder then
            match x.bkpAllocZero wantOrder with
            | (none, x) => some (x, emptying v)
            | (some pgfm, x) => some (x, taken (.dup u rest) v
                { area with pa := L.pg2pa pgfm, pgfm := none } pgfm wantOrder)
          else none
        else some (x, adding (.dup u rest) v { area with pgfm := none } none)
      else none
    else none
  | _ =>
    if area.va % pageSize = 0 ∧ area.pa % pageSize = 0 ∧ area.size % pageSize = 0 ∧
        0 < area.size ∧ area.pgfm = none then
      some (x, adding (.dup u rest) v area none)
    else none

/-- `__vm_mmap` up to `vma_area_val_init`. -/
def addNext (caller : VmCaller) (v : ℕ) (area : VmaArea) (own : Option ℕ) :
    Option (VmState A × VmPc) :=
  if v ≠ 0 ∧ 0 < area.size ∧ area.va % pageSize = 0 ∧ area.pa % pageSize = 0 ∧
      area.size % pageSize = 0 then
    match x.objAlloc .vmaArea with
    | (none, x) => some (x, failed caller v own)
    | (some vmaArea, x) => some (x.setArea vmaArea area, hanging caller v vmaArea own)
  else none

/-- The callback of `__vm_mmap` up to the return of `hw_mmap`. -/
def enterNext (caller : VmCaller) (v vmaArea : ℕ) (own : Option ℕ) : Option (VmState A × VmPc) :=
  let area := x.areas vmaArea
  if area.vmarTyp = .memory ∧ area.pgfm ≠ none then none
  -- lazy allocation: nothing is entered in the page table
  else if area.vmarTyp = .memory ∧ area.pa = paLazy then some (x, caller.done v)
  else if area.vmarTyp = .memory ∧ ¬ L.paValid area.pa then none
  else
    match x.hwMmapArea v area with
    | .error _ => none
    | .ok (ret, x) => some (x, entered caller v vmaArea own ret)

/-- The rest of the callback: the block of the area counts one more reference. -/
def countNext (caller : VmCaller) (v vmaArea : ℕ) (own : Option ℕ) (ret : ℤ) :
    Option (VmState A × VmPc) :=
  if ret = -eexist then none
  -- the label `unhang_vma_area`
  else if ret ≠ 0 then some (x.vmaAreaUnhang v vmaArea, discarding caller v vmaArea own)
  else if (x.areas vmaArea).vmarTyp = .memory then
    let pgfm := L.pa2pg (x.areas vmaArea).pa
    if x.BlockOk pgfm (x.areas vmaArea) then some (x.referenced vmaArea pgfm, caller.done v)
    else none
  else some (x, caller.done v)

/-- The section of `unmmap_memory_cb` under the lock of the block: a reference is dropped.  The area
hangs nowhere any more, so that nobody sees when its `pgfm` is cleared. -/
def dropNext (whole : Bool) (v vmaArea : ℕ) : Option (VmState A × VmPc) :=
  match (x.areas vmaArea).pgfm with
  | none => if (x.areas vmaArea).pa = paLazy then some (x, cleared whole v vmaArea) else none
  | some pgfm =>
    if (x.areas vmaArea).pa ≠ paLazy ∧ x.BlockOk pgfm (x.areas vmaArea) then
      let pg : Pageframe := { x.mem.pages pgfm with refCount := (x.mem.pages pgfm).refCount - 1 }
      -- with the last reference the block goes back, before the page table is touched
      if pg.refCount = 0 then
        some ((x.setPage pgfm { pg with pgtype := .buddyAllocator }).setArea vmaArea
          { x.areas vmaArea with pgfm := none }, freeing whole v vmaArea pgfm)
      else some ((x.setPage pgfm pg).setArea vmaArea { x.areas vmaArea with pgfm := none },
        clearing whole v vmaArea)
    else none

/-- The next area of `vma_free`, or `hw_unmap_all`. -/
def emptyNext (v : ℕ) : Option (VmState A × VmPc) :=
  match x.list v with
  | vmaArea :: _ => some (x.vmaAreaUnhang v vmaArea,
      if (x.areas vmaArea).vmarTyp = .memory then unhung true v vmaArea
      else clearing true v vmaArea)
  | [] =>
    -- every area is gone, and then the lock is given back
    match x.hwUnmapAll v with
    | .error _ => none
    | .ok x => some (x, closing v)

/-- Execute one section. -/
def advance : VmPc → Option (VmState A × VmPc)
  | idle => none
  | made u v =>
    if (x.vmas v).hwPgtable = none ∧ (x.vmas v).kernelVma = 0 then
      match x.bkpAllocZero 0 with
      | (none, x) => some (x, unmade v)
      | (some pg, x) => some (x.setVma v ⟨some pg, x.kernVma, .nil, []⟩, opened u v)
    else none
  | unmade v => (x.objFree .vma v).map fun x => (x, idle)
  | opened u v => some (x, copying u v (x.list u))
  | copying _ _ [] => some (x, idle)
  | copying u v (b :: rest) => copyNext x u v b rest
  | taken c v area pgfm order =>
    -- the section under the lock of the new block
    match x.claimBlock pgfm order with
    | .error _ => none
    | .ok x => some (x, adding c v area (some pgfm))
  | adding c v area own => addNext x c v area own
  | hanging c v vmaArea own =>
    match x.vmaAreaHang v vmaArea with
    | (ret, x) =>
      if ret ≠ 0 then some (x, discarding c v vmaArea own) else some (x, hung c v vmaArea own)
  | hung c v vmaArea own => enterNext x c v vmaArea own
  | entered c v vmaArea own ret => countNext x c v vmaArea own ret
  | discarding c v vmaArea own => (x.objFree .vmaArea vmaArea).map fun x => (x, failed c v own)
  -- the block goes back; `vma_dup` leaves its reference count as it is
  | failed c v none => some (x, c.refused v)
  | failed .mmap v (some pgfm) =>
    some (x.setPage pgfm { x.mem.pages pgfm with pgtype := .buddyAllocator, refCount := 0 },
      returned .mmap v pgfm)
  | failed (.dup u rest) v (some pgfm) =>
    some (x.setPage pgfm { x.mem.pages pgfm with pgtype := .buddyAllocator },
      returned (.dup u rest) v pgfm)
  | returned c v pgfm => (x.mem.bkpFree pgfm).map fun m => (x.withMem m, c.refused v)
  | emptying v => emptyNext x v
  | unhung whole v vmaArea => dropNext x whole v vmaArea
  | freeing whole v vmaArea pgfm =>
    (x.mem.bkpFree pgfm).map fun m => (x.withMem m, clearing whole v vmaArea)
  | clearing whole v vmaArea =>
    match x.hwUnmapArea v (x.areas vmaArea) with
    | .error _ => none
    | .ok x => some (x, cleared whole v vmaArea)
  | cleared whole v vmaArea =>
    (x.objFree .vmaArea vmaArea).map fun x => (x, if whole then emptying v else idle)
  -- `memset` of the object comes after the lock is given back
  | closing v => ((x.setVma v .zero).objFree .vma v).map fun x => (x, idle)

/-- `__vm_unmap` up to the end of `vma_area_unhang`. -/
def unhangNext (v va size : ℕ) (typ : VmarType) : Option (VmState A × VmPc) :=
  if v ≠ 0 ∧ 0 < size ∧ va % pageSize = 0 ∧ size % pageSize = 0 then
    match x.findArea v va size with
    | none => some (x, idle)
    | some vmaArea =>
      if (x.areas vmaArea).va = va ∧ (x.areas vmaArea).size = size then
        if (x.areas vmaArea).vmarTyp ≠ typ then some (x, idle)
        else some (x.vmaAreaUnhang v vmaArea,
          if typ = .memory then unhung false v vmaArea else clearing false v vmaArea)
      else none
  else none

/-- `vma_dup` up to `kmem_obj_alloc`. -/
def makeNext (u : ℕ) : VmState A × VmPc :=
  if u = 0 ∨ (x.vmas u).kernelVma ≠ x.kernVma ∨ (x.vmas u).hwPgtable = none then (x, idle)
  else
    match x.objAlloc .vma with
    | (none, x) => (x, idle)
    | (some ret, x) => (x, made u ret)

/-- The first section of a call; a call that returns at once leaves the CPU idle. -/
def start : VmCall → Option (VmState A × VmPc)
  | .vmaAlloc => some (makeNext x x.kernVma)
  | .vmaDup u => some (makeNext x u)
  | .vmaFree v =>
    if v = 0 ∨ v = x.kernVma ∨ (x.vmas v).kernelVma ≠ x.kernVma then some (x, idle)
    else some (x, emptying v)
  | .vmIomap v va pa prot size =>
    if IomapAccepts L v va pa size then some (x, adding .mmap v (ioArea va pa prot size) none)
    else some (x, idle)
  | .vmIounmap v va size =>
    if ¬ (L.vaEnd ≤ va ∨ (va + size) % 2 ^ 64 ≤ L.vaStart) ∨ v = 0 ∨ va % pageSize ≠ 0 then
      some (x, idle)
    else unhangNext x v va (pageUpperAlign size) .io
  | .vmMmap v va order prot =>
    if v = 0 ∨ va % pageSize ≠ 0 ∨ ¬ (0 ≤ order ∧ order < L.maxOrder) then some (x, idle)
    else
      match x.bkpAllocZero order with
      | (none, x) => some (x, idle)
      | (some pgfm, x) =>
        some (x, taken .mmap v (memoryArea L va pgfm order.toNat prot) pgfm order)
  | .vmUnmap v va order =>
    if v = 0 ∨ va % pageSize ≠ 0 ∨ (x.vmas v).kernelVma ≠ x.kernVma ∨
        ¬ (0 ≤ order ∧ order < L.maxOrder) then some (x, idle)
    else unhangNext x v va (1 <<< order.toNat * pageSize) .memory

end VmPc

/-! ### All CPUs -/

/-- The address spaces that have a page table. -/
def VmState.tabled (x : VmState A) : Finset ℕ :=
  (x.live .vma).filter fun v => (x.vmas v).hwPgtable ≠ none

/-- The address spaces, the blocks that are held outside of them, and the CPUs. -/
structure VmCpus (A : VmEnv L) (ι : Type) where
  st : VmState A
  owned : Finset ℕ
  pc : ι → VmPc

/-- What a CPU does next: it starts a call, executes a section of one, or calls `bkp_alloc` or
`bkp_free` for somebody else. -/
inductive CpuEvent
  | call (call : VmCall)
  | advance
  | alloc (order : ℤ)
  | free (pgfm : ℕ)

namespace VmCpus

variable {ι : Type} [DecidableEq ι]

/-- Nobody is in the way of a CPU. -/
def Admits (σ : VmCpus A ι) (i : ι) (pc : VmPc) : Prop :=
  ∀ j, j ≠ i → (σ.pc j).Compatible pc ∧ pc.Compatible (σ.pc j)

/-- A CPU has done something to the address spaces. -/
def moved (σ : VmCpus A ι) (i : ι) (x : VmState A) (pc : VmPc) : VmCpus A ι :=
  ⟨x, σ.owned, Function.update σ.pc i pc⟩

/-- A step of CPU `i`.  A `vma_t*` is `NULL` or an address space that has been made. -/
inductive Step (σ : VmCpus A ι) (i : ι) : CpuEvent → VmCpus A ι → Prop
  | call {call : VmCall} {x : VmState A} {pc : VmPc} (hi : σ.pc i = .idle) (hwords : call.Words)
      (hvma : call.vma = 0 ∨ call.vma ∈ σ.st.tabled)
      (h : VmPc.start σ.st call = some (x, pc)) (hwait : σ.Admits i pc) :
      Step σ i (.call call) (σ.moved i x pc)
  | advance {x : VmState A} {pc : VmPc} (h : VmPc.advance σ.st (σ.pc i) = some (x, pc))
      (hwait : σ.Admits i pc) : Step σ i .advance (σ.moved i x pc)
  | alloc {order : ℤ} {p : ℕ} {x : VmState A} (hi : σ.pc i = .idle)
      (h : σ.st.bkpAllocZero order = (some p, x)) :
      Step σ i (.alloc order) ⟨x, insert p σ.owned, σ.pc⟩
  | allocNone {order : ℤ} {x : VmState A} (hi : σ.pc i = .idle)
      (h : σ.st.bkpAllocZero order = (none, x)) : Step σ i (.alloc order) ⟨x, σ.owned, σ.pc⟩
  | free {p : ℕ} {m : Memory A.toPageAllocator} (hi : σ.pc i = .idle) (hp : p ∈ σ.owned)
      (h : σ.st.mem.bkpFree p = some m) :
      Step σ i (.free p) ⟨σ.st.withMem m, σ.owned.erase p, σ.pc⟩

end VmCpus

/-- The CPUs of `ι`, from the state after `vm_module_init`. -/
def vmCpus (A : VmEnv L) (ι : Type) [DecidableEq ι] : System (VmCpus A ι) (ι × CpuEvent) where
  init σ := (vmRuns A).init σ.st ∧ σ.owned = ∅ ∧ ∀ i, σ.pc i = .idle
  step σ a σ' := σ.Step a.1 a.2 σ'

/-! ### Pages that are in use -/

namespace VmPc

/-- The area that is being removed. -/
def removes : VmPc → Option (ℕ × ℕ)
  | unhung _ v a | freeing _ v a _ | clearing _ v a => some (v, a)
  | _ => none

/-- The block that a call has taken and that no area is backed by yet. -/
def gains : VmPc → Option ℕ
  | taken _ _ _ p _ | returned _ _ p => some p
  | adding _ _ _ own | hanging _ _ _ own | hung _ _ _ own | entered _ _ _ own _
  | discarding _ _ _ own | failed _ _ own => own
  | _ => none

end VmPc

namespace VmCpus

variable {ι : Type}

/-- Page `q` has a valid entry from an area of type `VMA_MEMORY` that is being removed. -/
def Exposed (σ : VmCpus A ι) (q : ℕ) : Prop :=
  q < L.pageNums ∧ ∃ (i : ι) (v a w e : ℕ), (σ.pc i).removes = some (v, a) ∧ v ∈ σ.st.tabled ∧
    (σ.st.areas a).vmarTyp = .memory ∧ w < tableSpan ∧ (σ.st.areas a).Covers w ∧
    σ.st.entry v w = some e ∧ PteValid e ∧ e = (σ.st.areas a).pte w ∧ sv39PTE2Pa e = L.pg2pa q

/-- Page `q` is in a pool, or has got a new owner: somebody who has taken a block, or a page
table. -/
def Reused (σ : VmCpus A ι) (q : ℕ) : Prop :=
  q ∈ σ.st.mem.freePages ∨
  (∃ p o, (p ∈ σ.owned ∨ ∃ i, (σ.pc i).gains = some p) ∧ σ.st.mem.blocks p = some o ∧
    q ∈ pagesOf p o) ∨
  ∃ v ∈ σ.st.tabled, q ∈ σ.st.mem.tables 2 (σ.st.root v)

end VmCpus

end AcoOs
