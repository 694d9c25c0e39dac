/-
The locks of the address spaces.

Beside each function of `vm.c` that takes a lock stands the sequence of lock operations of a call
that returns, exit by exit.

* **`vm_locks_balanced_iff`** — a call gives back what it takes of the lock of its address space and
  leaves the nesting depth, except `vm_check` of one without a page table or of another kernel;
* **`not_vm_locks_balanced`** — there `vm_check` leaves a reader behind.
-/
import AcoOs.PageTableLocks
import AcoOs.SlabMachine

namespace AcoOs

variable {L : VmLayout} {A : VmEnv L}

/-! ### The functions of `vm.c` -/

namespace VmState

variable (E : LockedEnv A)

/-- `hw_mmap` of an area. -/
def hwMmapAreaOps (x : VmState A) (vma : ℕ) (area : VmaArea) : List LockOp :=
  match (x.vmas vma).hwPgtable with
  | none => []
  | some pgtable =>
    x.mem.hwMmapOps E.toLockedAllocator pgtable area.va area.pa area.prot area.size

/-- `hw_unmap` of an area. -/
def hwUnmapAreaOps (x : VmState A) (vma : ℕ) (area : VmaArea) : List LockOp :=
  match (x.vmas vma).hwPgtable with
  | none => []
  | some pgtable => x.mem.hwUnmapOps E.toLockedAllocator pgtable area.va area.size

/-- `hw_map_callbacks`. -/
def hwMapCallbackOps (x : VmState A) (vma vmaArea : ℕ) : VmarType → List LockOp
  | .memory =>
    if (x.areas vmaArea).pa = paLazy then []
    else x.hwMmapAreaOps E vma (x.areas vmaArea) ++
      match x.hwMmapArea vma (x.areas vmaArea) with
      | .ok (0, _) => locked (.page (L.pa2pg (x.areas vmaArea).pa)) []
      | _ => []
  | _ => x.hwMmapAreaOps E vma (x.areas vmaArea)

/-- `hw_unmap_callbacks`. -/
def hwUnmapCallbackOps (x : VmState A) (vma vmaArea : ℕ) : VmarType → List LockOp
  | .memory =>
    if (x.areas vmaArea).pa = paLazy then []
    else
      match (x.areas vmaArea).pgfm with
      | none => []
      | some pgfm => locked (.page pgfm) [] ++
        (if (x.mem.pages pgfm).refCount - 1 = 0 then E.freeOps x.mem.buddy pgfm else []) ++
        match x.dropBlock pgfm vmaArea with
        | .error _ => []
        | .ok x => x.hwUnmapAreaOps E vma (x.areas vmaArea)
  | _ => x.hwUnmapAreaOps E vma (x.areas vmaArea)

/-- `__vm_mmap`. -/
def vmMmapInternalOps (x : VmState A) (vma va pa prot size : ℕ) (typ : VmarType)
    (needHwmap : Bool) : List LockOp :=
  E.objAllocOps x.mem.buddy .vmaArea ++
  match x.objAlloc .vmaArea with
  | (none, _) => []
  | (some vmaArea, x) =>
    .wLockBr vma ::
    match (x.setArea vmaArea ⟨typ, va, size, pa, none, prot⟩).vmaAreaHang vma vmaArea with
    | (ret, x) =>
      if ret ≠ 0 then E.objFreeOps x.mem.buddy .vmaArea vmaArea ++ [.wUnlockBr vma]
      else if needHwmap then
        x.hwMapCallbackOps E vma vmaArea typ ++
        match hwMapCallbacks typ x vma vmaArea with
        | .error _ => []
        | .ok (ret, x) =>
          if ret ≠ 0 then
            E.objFreeOps (x.vmaAreaUnhang vma vmaArea).mem.buddy .vmaArea vmaArea ++
              [.wUnlockBr vma]
          else [.wUnlockBr vma]
      else [.wUnlockBr vma]

/-- Unhang an area, undo its mapping and free the object. -/
def removeAreaOps (x : VmState A) (vma vmaArea : ℕ) (typ : VmarType) : List LockOp :=
  (x.vmaAreaUnhang vma vmaArea).hwUnmapCallbackOps E vma vmaArea typ ++
  match hwUnmapCallbacks typ (x.vmaAreaUnhang vma vmaArea) vma vmaArea with
  | .error _ => []
  | .ok x => E.objFreeOps x.mem.buddy .vmaArea vmaArea

/-- `__vm_unmap`. -/
def vmUnmapInternalOps (x : VmState A) (vma va size : ℕ) (typ : VmarType) (needHwunmap : Bool) :
    List LockOp :=
  .wLockBr vma ::
  match x.findArea vma va size with
  | none => [.wUnlockBr vma]
  | some vmaArea =>
    if (x.areas vmaArea).vmarTyp ≠ typ then [.wUnlockBr vma]
    else if needHwunmap then x.removeAreaOps E vma vmaArea typ ++ [.wUnlockBr vma]
    else E.objFreeOps (x.vmaAreaUnhang vma vmaArea).mem.buddy .vmaArea vmaArea ++ [.wUnlockBr vma]

/-- The loop of `vma_free`. -/
def freeAreasOps (x : VmState A) (vma : ℕ) : List ℕ → List LockOp
  | [] => []
  | vmaArea :: areas => x.removeAreaOps E vma vmaArea (x.areas vmaArea).vmarTyp ++
    match x.removeArea vma vmaArea (x.areas vmaArea).vmarTyp with
    | .error _ => []
    | .ok x => freeAreasOps x vma areas

/-- `hw_unmap_all` of the page table of an address space. -/
def hwUnmapAllOps (x : VmState A) (vma : ℕ) : List LockOp :=
  match (x.vmas vma).hwPgtable with
  | none => []
  | some pgtable => x.mem.hwUnmapAllOps E.toLockedAllocator pgtable

/-- `vma_free`. -/
def vmaFreeOps (x : VmState A) (vma : ℕ) : List LockOp :=
  if vma = 0 then []
  else if vma = x.kernVma then []
  else if (x.vmas vma).kernelVma ≠ x.kernVma then []
  else
    .wLockBr vma :: x.freeAreasOps E vma (x.vmas vma).lList ++
    match x.freeAreas vma (x.vmas vma).lList with
    | .error _ => []
    | .ok x =>
      x.hwUnmapAllOps E vma ++ .wUnlockBr vma :: .clear vma ::
      match x.hwUnmapAll vma with
      | .error _ => []
      | .ok x => E.objFreeOps x.mem.buddy .vma vma

/-- `__vm_mmap` of the copy of an area. -/
def copyAreaOps (x : VmState A) (vma : ℕ) (area : VmaArea) (pa : ℕ) : List LockOp :=
  x.vmMmapInternalOps E vma area.va pa area.prot area.size area.vmarTyp true

/-- A copy with a new block. -/
def copyBlockOps (x : VmState A) (vma : ℕ) (area : VmaArea) (wantOrder : ℤ) : List LockOp :=
  E.allocOps x.mem.buddy wantOrder ++
  match x.bkpAllocZero wantOrder with
  | (none, _) => []
  | (some pgfm, x) => locked (.page pgfm) [] ++
    match x.claimBlock pgfm wantOrder with
    | .error _ => []
    | .ok x => x.copyAreaOps E vma area (L.pg2pa pgfm) ++
      match x.copyArea vma area (L.pg2pa pgfm) with
      | .ok (false, x) => locked (.page pgfm) [] ++ E.freeOps x.mem.buddy pgfm
      | _ => []

/-- What the loop of `vma_dup` does with one area. -/
def dupAreaOps (x : VmState A) (vma : ℕ) (area : VmaArea) : List LockOp :=
  if area.vmarTyp = .memory ∧ area.pa ≠ paLazy ∧ area.prot &&& protW ≠ 0 then
    x.copyBlockOps E vma area (pgnum2order L.maxOrder (toInt32 (area.size / pageSize)))
  else x.copyAreaOps E vma area area.pa

/-- The loop of `vma_dup` over the areas of `vmaCopied`, and what comes behind it. -/
def dupAreasOps (x : VmState A) (vmaCopied vma : ℕ) : List ℕ → List LockOp
  | [] => [.rUnlock vmaCopied]
  | vmaArea :: areas => x.dupAreaOps E vma (x.areas vmaArea) ++
    match x.dupArea vma (x.areas vmaArea) with
    | .error _ => []
    | .ok (false, x) => .rUnlock vmaCopied :: x.vmaFreeOps E vma
    | .ok (true, x) => dupAreasOps x vmaCopied vma areas

/-- `vma_dup`. -/
def vmaDupOps (x : VmState A) (vmaCopied : ℕ) : List LockOp :=
  if vmaCopied = 0 ∨ (x.vmas vmaCopied).kernelVma ≠ x.kernVma ∨
      (x.vmas vmaCopied).hwPgtable = none then []
  else
    E.objAllocOps x.mem.buddy .vma ++
    match x.objAlloc .vma with
    | (none, _) => []
    | (some ret, x) =>
      E.allocOps x.mem.buddy 0 ++
      match x.bkpAllocZero 0 with
      | (none, x) => E.objFreeOps x.mem.buddy .vma ret
      | (some pg, x) =>
        .rwlockInit ret :: .rLock vmaCopied ::
          (x.setVma ret ⟨some pg, x.kernVma, .nil, []⟩).dupAreasOps E vmaCopied ret
            (x.vmas vmaCopied).lList

/-- The loop of `vm_check`. -/
def vmCheckLoopOps (x : VmState A) (vma bef size : ℕ) : List ℕ → List LockOp
  | [] => [.rUnlock vma]
  | vmaArea :: areas =>
    let area := x.areas vmaArea
    if ¬ (area.va % pageSize = 0 ∧ area.pa % pageSize = 0 ∧ area.size % pageSize = 0 ∧
        0 < area.size) then [.rUnlock vma]
    else if area.vmarTyp ≠ .memory ∧ area.pgfm ≠ none then [.rUnlock vma]
    else if area.prot &&& vmProtV = 0 then [.rUnlock vma]
    else if bef ≠ 2 ^ 64 - 1 ∧ ¬ (bef + size) % 2 ^ 64 ≤ area.va then [.rUnlock vma]
    else if x.findArea vma area.va area.size ≠ some vmaArea then [.rUnlock vma]
    else vmCheckLoopOps x vma area.va area.size areas

/-- `vm_check`. -/
def vmCheckOps (x : VmState A) (vma : ℕ) : List LockOp :=
  if vma = 0 then []
  else
    .rLock vma ::
    -- these two returns have no `r_unlock`
    if (x.vmas vma).hwPgtable = none then []
    else if (x.vmas vma).kernelVma ≠ x.kernVma then []
    else x.vmCheckLoopOps vma (2 ^ 64 - 1) (2 ^ 64 - 1) (x.vmas vma).lList

/-- `__vm_unmap` with any `need_hwunmap`. -/
def vmUnmapInternalAny (x : VmState A) (vma va size : ℕ) (typ : VmarType) (needHwunmap : Bool) :
    Except VmAssert (ℤ × VmState A) :=
  if needHwunmap then x.vmUnmapInternal vma va size typ
  else if vma ≠ 0 ∧ 0 < size ∧ va % pageSize = 0 ∧ size % pageSize = 0 then
    match x.findArea vma va size with
    | none => .ok (-enobufs, x)
    | some vmaArea =>
      if (x.areas vmaArea).va = va ∧ (x.areas vmaArea).size = size then
        if (x.areas vmaArea).vmarTyp ≠ typ then .ok (-eperm, x)
        else
          match (x.vmaAreaUnhang vma vmaArea).objFree .vmaArea vmaArea with
          | none => .error .callee
          | some x => .ok (0, x)
      else .error .argument
  else .error .argument

/-! ### Between `w_lock_br` and `w_unlock_br` -/

variable {E}

theorem hwMmapAreaOps_neutral (x : VmState A) (vma : ℕ) (area : VmaArea) :
    Neutral (x.hwMmapAreaOps E vma area) := by
  unfold hwMmapAreaOps
  split
  · exact .nil
  · exact x.mem.hwMmapOps_neutral ..

theorem hwUnmapAreaOps_neutral (x : VmState A) (vma : ℕ) (area : VmaArea) :
    Neutral (x.hwUnmapAreaOps E vma area) := by
  unfold hwUnmapAreaOps
  split
  · exact .nil
  · exact x.mem.hwUnmapOps_neutral ..

theorem hwMapCallbackOps_neutral (x : VmState A) (vma vmaArea : ℕ) (typ : VmarType) :
    Neutral (x.hwMapCallbackOps E vma vmaArea typ) := by
  unfold hwMapCallbackOps
  split
  · refine .ite .nil (.append (x.hwMmapAreaOps_neutral ..) ?_)
    split
    · exact .critical _
    · exact .nil
  · exact x.hwMmapAreaOps_neutral ..

theorem hwUnmapCallbackOps_neutral (x : VmState A) (vma vmaArea : ℕ) (typ : VmarType) :
    Neutral (x.hwUnmapCallbackOps E vma vmaArea typ) := by
  unfold hwUnmapCallbackOps
  split
  · refine .ite .nil ?_
    split
    · exact .nil
    · refine .append (.append (.critical _) (.ite (E.free_neutral ..) .nil)) ?_
      split
      · exact .nil
      · exact hwUnmapAreaOps_neutral ..
  · exact x.hwUnmapAreaOps_neutral ..

theorem hwUnmapAllOps_neutral (x : VmState A) (vma : ℕ) : Neutral (x.hwUnmapAllOps E vma) := by
  unfold hwUnmapAllOps
  split
  · exact .nil
  · exact x.mem.hwUnmapAllOps_neutral _

theorem removeAreaOps_neutral (x : VmState A) (vma vmaArea : ℕ) (typ : VmarType) :
    Neutral (x.removeAreaOps E vma vmaArea typ) := by
  unfold removeAreaOps
  refine .append (hwUnmapCallbackOps_neutral ..) ?_
  split
  · exact .nil
  · exact E.objFree_neutral ..

theorem freeAreasOps_neutral (vma : ℕ) (l : List ℕ) (x : VmState A) :
    Neutral (x.freeAreasOps E vma l) := by
  induction l generalizing x with
  | nil => exact .nil
  | cons a l ih =>
    unfold freeAreasOps
    refine .append (x.removeAreaOps_neutral ..) ?_
    split
    · exact .nil
    · exact ih _

end VmState

/-! ### Calls that return -/

/-- The operations take the lock of `vma` for writing once, or not at all. -/
def WritesOnce (vma : ℕ) (ops : List LockOp) : Prop :=
  Neutral ops ∨ ∃ l l', Neutral l ∧ Neutral l' ∧
    ops = l ++ (.wLockBr vma :: l' ++ [.wUnlockBr vma])

theorem WritesOnce.apart {u v : ℕ} {ops : List LockOp} (h : WritesOnce u ops) (hu : u ≠ v) :
    Apart v ops := by
  rcases h with h | ⟨l, l', hl, hl', rfl⟩
  · exact h.apart v
  · exact (hl.apart v).append (.wLockBr hu (hl'.apart v))

theorem WritesOnce.same {v : ℕ} {ops : List LockOp} (h : WritesOnce v ops) {w w' : Locks}
    (hw : w.writers v = 0) (hr : runOps w ops = some w') : Locks.Same v w w' := by
  rcases h with h | ⟨l, l', hl, hl', rfl⟩
  · exact h.apart v w w' hr
  · rw [runOps_append] at hr
    obtain ⟨w₁, h₁, h₂⟩ := Option.bind_eq_some_iff.1 hr
    have hs := hl.apart v w w₁ h₁
    exact hs.trans (same_of_wLockBr (hl'.apart v) (hs.writers.trans hw) h₂)

/-- The operations take the lock `v` for reading once, or not at all. -/
def ReadsOnce (v : ℕ) (ops : List LockOp) : Prop :=
  Apart v ops ∨ ∃ l l' l'', Apart v l ∧ Apart v l' ∧ Apart v l'' ∧
    ops = l ++ (.rLock v :: l' ++ [.rUnlock v]) ++ l''

theorem ReadsOnce.same {v : ℕ} {ops : List LockOp} (h : ReadsOnce v ops) {w w' : Locks}
    (hw : w.readers v = 0) (hr : runOps w ops = some w') : Locks.Same v w w' := by
  rcases h with h | ⟨l, l', l'', hl, hl', hl'', rfl⟩
  · exact h w w' hr
  · rw [runOps_append, runOps_append] at hr
    obtain ⟨w₂, hr, h₃⟩ := Option.bind_eq_some_iff.1 hr
    obtain ⟨w₁, h₁, h₂⟩ := Option.bind_eq_some_iff.1 hr
    have hs := hl w w₁ h₁
    exact (hs.trans (same_of_rLock hl' (hs.readers.trans hw) h₂)).trans (hl'' w₂ w' h₃)

namespace VmState

variable {E : LockedEnv A} {x y : VmState A} {vma v : ℕ}

theorem vmMmapInternalOps_writesOnce {va pa prot size : ℕ} {typ : VmarType} {needHwmap : Bool}
    {r : ℤ × VmState A} (h : x.vmMmapInternal vma va pa prot size typ needHwmap = .ok r) :
    WritesOnce vma (x.vmMmapInternalOps E vma va pa prot size typ needHwmap) := by
  unfold vmMmapInternal at h
  split_ifs at h
  unfold vmMmapInternalOps
  rcases ho : x.objAlloc .vmaArea with ⟨_ | a, y⟩
  · exact .inl ((E.objAlloc_neutral ..).append .nil)
  · rw [ho] at h
    dsimp only at h ⊢
    refine .inr ⟨E.objAllocOps x.mem.buddy .vmaArea, ?_⟩
    unfold mmapArea at h
    generalize (y.setArea a ⟨typ, va, size, pa, none, prot⟩).vmaAreaHang vma a = res at h ⊢
    obtain ⟨ret, z⟩ := res
    dsimp only at h ⊢
    by_cases hret : ret ≠ 0
    · rw [if_pos hret]
      exact ⟨_, E.objAlloc_neutral .., E.objFree_neutral .., rfl⟩
    · rw [if_neg hret] at h ⊢
      by_cases hneed : needHwmap
      · rw [if_pos hneed] at h ⊢
        have hcb := z.hwMapCallbackOps_neutral (E := E) vma a typ
        cases hc : hwMapCallbacks typ z vma a with
        | error e =>
          rw [hc] at h
          cases h
        | ok res =>
          obtain ⟨ret', z'⟩ := res
          dsimp only
          split_ifs
          · exact ⟨_, E.objAlloc_neutral .., hcb.append (E.objFree_neutral ..), by
              rw [List.cons_append, List.append_assoc]⟩
          · exact ⟨_, E.objAlloc_neutral .., hcb, rfl⟩
      · rw [if_neg hneed]
        exact ⟨[], E.objAlloc_neutral .., .nil, rfl⟩

/-- With an object for the area, `__vm_mmap` takes the lock. -/
theorem mem_vmMmapInternalOps {va pa prot size : ℕ} {typ : VmarType} {needHwmap : Bool}
    (h : (x.objAlloc .vmaArea).1 ≠ none) :
    .wLockBr vma ∈ x.vmMmapInternalOps E vma va pa prot size typ needHwmap := by
  obtain ⟨a, ha⟩ := Option.ne_none_iff_exists'.1 h
  unfold vmMmapInternalOps
  rw [show x.objAlloc .vmaArea = (some a, (x.objAlloc .vmaArea).2) from Prod.ext ha rfl]
  exact List.mem_append_right _ List.mem_cons_self

theorem vmUnmapInternalOps_writesOnce {va size : ℕ} {typ : VmarType} {needHwunmap : Bool} :
    WritesOnce vma (x.vmUnmapInternalOps E vma va size typ needHwunmap) := by
  refine .inr ⟨[], ?_⟩
  unfold vmUnmapInternalOps
  split
  · exact ⟨[], .nil, .nil, rfl⟩
  · split_ifs
    · exact ⟨[], .nil, .nil, rfl⟩
    · exact ⟨_, .nil, x.removeAreaOps_neutral .., rfl⟩
    · exact ⟨_, .nil, E.objFree_neutral .., rfl⟩

/-- `vma_free` leaves the locks of the others alone. -/
theorem vmaFreeOps_apart (hv : vma ≠ v) (h : x.vmaFree vma = .ok y) :
    Apart v (x.vmaFreeOps E vma) := by
  unfold vmaFree at h
  unfold vmaFreeOps
  split_ifs at h ⊢
  · exact .nil v
  · exact .nil v
  · exact .nil v
  · rcases hz : x.freeAreas vma (x.vmas vma).lList with e | z
    · rw [hz] at h
      cases h
    · rw [hz] at h
      dsimp only at h ⊢
      rcases hu : z.hwUnmapAll vma with e | u
      · rw [hu] at h
        cases h
      · have hin := ((x.freeAreasOps_neutral (E := E) vma (x.vmas vma).lList).append
          (z.hwUnmapAllOps_neutral (E := E) vma)).apart v
        have happ := (Apart.wLockBr hv hin).append ((Apart.setRwlock hv).2.append
          ((E.objFree_neutral u.mem.buddy .vma vma).apart v))
        simpa only [List.cons_append, List.append_assoc, List.nil_append] using happ

theorem copyAreaOps_apart (hv : vma ≠ v) {area : VmaArea} {pa : ℕ} {r : Bool × VmState A}
    (h : x.copyArea vma area pa = .ok r) : Apart v (x.copyAreaOps E vma area pa) := by
  unfold copyArea at h
  split at h
  · cases h
  · rename_i he
    exact (vmMmapInternalOps_writesOnce he).apart hv

theorem copyBlockOps_apart (hv : vma ≠ v) {area : VmaArea} (wantOrder : ℤ) {r : Bool × VmState A}
    (h : x.copyBlock vma area wantOrder = .ok r) :
    Apart v (x.copyBlockOps E vma area wantOrder) := by
  unfold copyBlock at h
  unfold copyBlockOps
  refine .append ((E.alloc_neutral ..).apart v) ?_
  rcases ha : x.bkpAllocZero wantOrder with ⟨_ | pgfm, y⟩
  · exact .nil v
  · rw [ha] at h
    dsimp only at h ⊢
    refine .append ((Neutral.critical _).apart v) ?_
    rcases hz : y.claimBlock pgfm wantOrder with e | z
    · rw [hz] at h
      cases h
    · rw [hz] at h
      dsimp only at h ⊢
      cases hc : z.copyArea vma area (L.pg2pa pgfm) with
      | error e =>
        rw [hc] at h
        cases h
      | ok res =>
        refine (copyAreaOps_apart hv hc).append ?_
        obtain ⟨_ | _, u⟩ := res
        · exact ((Neutral.critical _).append (E.free_neutral ..)).apart v
        · exact .nil v

theorem dupAreaOps_apart (hv : vma ≠ v) {area : VmaArea} {r : Bool × VmState A}
    (h : x.dupArea vma area = .ok r) : Apart v (x.dupAreaOps E vma area) := by
  unfold dupArea at h
  unfold dupAreaOps
  split at h
  · rename_i ht
    dsimp only at h
    split_ifs at h with h1 h2 h3 h4 h5
    · rw [if_neg fun hc => hc.2.1 h2]
      exact copyAreaOps_apart hv h
    · rw [if_pos ⟨ht, h2, h5⟩]
      exact copyBlockOps_apart hv _ h
    · rw [if_neg fun hc => h5 hc.2.2]
      exact copyAreaOps_apart hv h
  · rename_i ht
    split_ifs at h
    rw [if_neg fun hc => ht hc.1]
    exact copyAreaOps_apart hv h

/-- The loop of `vma_dup` gives the reader back at each of its exits. -/
theorem dupAreasOps_shape (hv : vma ≠ v) (l : List ℕ) {x : VmState A} {b : Bool}
    (h : x.dupAreas vma l = .ok (b, y)) (hfree : b = false → ∃ z, y.vmaFree vma = .ok z) :
    ∃ l₁ l₂, Apart v l₁ ∧ Apart v l₂ ∧ x.dupAreasOps E v vma l = l₁ ++ .rUnlock v :: l₂ := by
  induction l generalizing x with
  | nil => exact ⟨[], [], .nil v, .nil v, rfl⟩
  | cons a l ih =>
    unfold dupAreas at h
    unfold dupAreasOps
    cases hd : x.dupArea vma (x.areas a) with
    | error e =>
      rw [hd] at h
      cases h
    | ok res =>
      have hap := dupAreaOps_apart (E := E) hv hd
      rw [hd] at h
      obtain ⟨_ | _, z⟩ := res
      · cases h
        obtain ⟨u, hu⟩ := hfree rfl
        exact ⟨_, _, hap, vmaFreeOps_apart hv hu, rfl⟩
      · obtain ⟨l₁, l₂, h₁, h₂, he⟩ := ih h
        dsimp only
        rw [he]
        exact ⟨_, l₂, hap.append h₁, h₂, (List.append_assoc ..).symm⟩

theorem vmaDupOps_readsOnce {r : ℕ × VmState A} (h : x.vmaDup v = .ok r) :
    ReadsOnce v (x.vmaDupOps E v) := by
  unfold vmaDup at h
  unfold vmaDupOps
  split_ifs at h ⊢ with hbad
  · exact .inl (.nil v)
  · push Not at hbad
    rcases ho : x.objAlloc .vma with ⟨_ | ret, y⟩
    · exact .inl (((E.objAlloc_neutral ..).append .nil).apart v)
    · rw [ho] at h
      have hvmas : y.vmas = x.vmas := by
        rw [← show (x.objAlloc .vma).2 = y from congrArg Prod.snd ho]
        rfl
      dsimp only at h ⊢
      split_ifs at h with hclean
      -- the new object is another one, since it has no page table
      have hne : ret ≠ v := by
        rintro rfl
        rw [hvmas] at hclean
        exact hbad.2.2 hclean.1
      have hpre := ((E.objAlloc_neutral x.mem.buddy .vma).append
        (E.alloc_neutral y.mem.buddy 0)).apart v
      cases ha : y.bkpAllocZero 0 with
      | mk pg z =>
        rw [ha] at h
        cases pg with
        | none =>
          refine .inl ?_
          have hall := ((E.objAlloc_neutral x.mem.buddy .vma).append
            ((E.alloc_neutral y.mem.buddy 0).append
              (E.objFree_neutral z.mem.buddy .vma ret))).apart v
          exact hall
        | some pg =>
          dsimp only at h ⊢
          obtain ⟨l₁, l₂, h₁, h₂, he⟩ : ∃ l₁ l₂, Apart v l₁ ∧ Apart v l₂ ∧
              (z.setVma ret ⟨some pg, z.kernVma, .nil, []⟩).dupAreasOps E v ret
                (z.vmas v).lList = l₁ ++ .rUnlock v :: l₂ := by
            split at h
            · cases h
            · rename_i hd
              exact dupAreasOps_shape hne _ hd fun hb => (nomatch hb)
            · rename_i u hd
              refine dupAreasOps_shape hne _ hd fun _ => ?_
              split at h
              · cases h
              · exact ⟨_, by assumption⟩
          rw [he]
          refine .inr ⟨_, l₁, l₂, hpre.append (Apart.setRwlock hne).1, h₁, h₂, ?_⟩
          simp only [List.cons_append, List.append_assoc, List.nil_append]

theorem vmCheckLoopOps_eq (l : List ℕ) (bef size : ℕ) :
    x.vmCheckLoopOps vma bef size l = [.rUnlock vma] := by
  induction l generalizing bef size with
  | nil => rfl
  | cons a l ih =>
    unfold vmCheckLoopOps
    dsimp only
    split_ifs <;> first | rfl | exact ih ..

end VmState

/-! ### Calls -/

/-- The calls that take the lock of an address space, with their other arguments. -/
inductive LockingCall
  | vmCheck
  | vmMmap (va pa prot size : ℕ) (typ : VmarType) (needHwmap : Bool)
  | vmUnmap (va size : ℕ) (typ : VmarType) (needHwunmap : Bool)
  | vmaDup
  deriving DecidableEq

namespace LockingCall

/-- No `ASSERT` stops the call. -/
def Returns (x : VmState A) (vma : ℕ) : LockingCall → Prop
  | vmCheck => True
  | vmMmap va pa prot size typ needHwmap =>
    ∃ r, x.vmMmapInternal vma va pa prot size typ needHwmap = .ok r
  | vmUnmap va size typ needHwunmap =>
    ∃ r, x.vmUnmapInternalAny vma va size typ needHwunmap = .ok r
  | vmaDup => ∃ r, x.vmaDup vma = .ok r

/-- What it does with locks. -/
def ops (E : LockedEnv A) (x : VmState A) (vma : ℕ) : LockingCall → List LockOp
  | vmCheck => x.vmCheckOps vma
  | vmMmap va pa prot size typ needHwmap =>
    x.vmMmapInternalOps E vma va pa prot size typ needHwmap
  | vmUnmap va size typ needHwunmap => x.vmUnmapInternalOps E vma va size typ needHwunmap
  | vmaDup => x.vmaDupOps E vma

/-- A call on an address space whose lock is free leaves the counters of the lock and the nesting
depth as they were when it returns. -/
def Balanced (E : LockedEnv A) (x : VmState A) (vma : ℕ) (call : LockingCall) : Prop :=
  call.Returns x vma → ∀ w w', w.Free vma → runOps w (call.ops E x vma) = some w' →
    Locks.Same vma w w'

/-- The two ways out of `vm_check` without `r_unlock`. -/
def LeavesReader (x : VmState A) (vma : ℕ) (call : LockingCall) : Prop :=
  call = vmCheck ∧ ((x.vmas vma).hwPgtable = none ∨ (x.vmas vma).kernelVma ≠ x.kernVma)

variable {E : LockedEnv A} {x : VmState A} {vma : ℕ} {call : LockingCall}

theorem balanced (hvma : vma ≠ 0) (hno : ¬ call.LeavesReader x vma) : call.Balanced E x vma := by
  intro hret w w' hw hr
  cases call with
  | vmCheck =>
    have hok : (x.vmas vma).hwPgtable ≠ none ∧ (x.vmas vma).kernelVma = x.kernVma := by
      constructor
      · exact fun h => hno ⟨rfl, .inl h⟩
      · by_contra h
        exact hno ⟨rfl, .inr h⟩
    have hops : x.vmCheckOps vma = .rLock vma :: [] ++ [.rUnlock vma] := by
      unfold VmState.vmCheckOps
      rw [if_neg hvma, if_neg hok.1, if_neg (not_not.2 hok.2), VmState.vmCheckLoopOps_eq]
      rfl
    exact same_of_rLock (.nil vma) hw.readers (hops ▸ hr)
  | vmMmap va pa prot size typ needHwmap =>
    obtain ⟨r, hr'⟩ := hret
    exact (VmState.vmMmapInternalOps_writesOnce hr').same hw.writers hr
  | vmUnmap va size typ needHwunmap =>
    exact VmState.vmUnmapInternalOps_writesOnce.same hw.writers hr
  | vmaDup =>
    obtain ⟨r, hr'⟩ := hret
    exact (VmState.vmaDupOps_readsOnce hr').same hw.readers hr

/-- A call that leaves a reader behind does so. -/
theorem not_balanced (hvma : vma ≠ 0) (h : call.LeavesReader x vma) : ¬ call.Balanced E x vma := by
  obtain ⟨rfl, hbad⟩ := h
  intro hbal
  have hops : x.vmCheckOps vma = [.rLock vma] := by
    unfold VmState.vmCheckOps
    rw [if_neg hvma]
    rcases hbad with h | h
    · rw [if_pos h]
    · rw [if_pos h, ite_self]
  set w : Locks := ⟨0, fun _ => 1, fun _ => 0, fun _ => 0⟩ with hw
  have hfree : w.Free vma := ⟨rfl, rfl, rfl⟩
  obtain ⟨w', hw'⟩ := hfree.rLock
  have hrun : runOps w (x.vmCheckOps vma) = some w' := by
    rw [hops]
    simp only [runOps, LockOp.run, hw']
  have hsame := (hbal trivial w w' hfree hrun).readers
  obtain ⟨-, hrd, -⟩ := Locks.rLock_some hw'
  rw [hrd, Function.update_self, hfree.readers] at hsame
  exact absurd hsame (by decide)

end LockingCall

/-- Every call on an address space whose lock is free gives back what it takes of the lock, except
`vm_check` where it finds no page table or another kernel. -/
theorem vm_locks_balanced_iff (E : LockedEnv A) (x : VmState A) (vma : ℕ) (hvma : vma ≠ 0)
    (call : LockingCall) : call.Balanced E x vma ↔ ¬ call.LeavesReader x vma :=
  ⟨fun h hno => LockingCall.not_balanced hvma hno h, LockingCall.balanced hvma⟩

/-- The machine with slabs, and the locks that its page allocator and its caches take. -/
def slabMachineLocked : LockedEnv slabMachine :=
  .ofCaches (buddyLocked (.all _) vmMachineLayout.vaStart_pos) (fun _ => 0) slabMachineCache

/-- Right after boot `__vm_mmap` of a page behind the managed range returns.  It takes an object and
the lock of `kern_vma`. -/
theorem slabMachine_locks : ∃ s : VmState slabMachine, (vmRuns slabMachine).init s ∧
    s.kernVma ≠ 0 ∧
    let call := LockingCall.vmMmap vmMachineLayout.vaEnd vmMachineLayout.paEnd 1 4096 .io true
    call.Returns s s.kernVma ∧
      .wLockBr s.kernVma ∈ call.ops slabMachineLocked s s.kernVma := by
  obtain ⟨s, text, data, hs, hb, hobj⟩ := slabMachine_boots
  refine ⟨s, hs, hb.vm.ne_zero hb.vm.kern_live, ?_, VmState.mem_vmMmapInternalOps hobj⟩
  have hreq : s.Request ⟨.io, vmMachineLayout.vaEnd, 4096, vmMachineLayout.paEnd, none, 1⟩ :=
    ⟨rfl, rfl, rfl, by decide, by decide, by decide, by decide, rfl, nofun, nofun⟩
  rcases VmState.vmMmapInternal_cases hb.vm hb.vm.kern_live hreq with ⟨e, -, hst⟩ |
    ⟨ret, x, he, -⟩ | ⟨a, x, he, -⟩
  · -- nothing is mapped there
    rcases hst with ⟨-, hneg⟩ | ⟨-, -, w, hw, hc, hvalid⟩
    · exact absurd hneg (by decide)
    · exact absurd hvalid ((vmMachine_behind hb rfl rfl).2 w hw hc)
  · exact ⟨_, he⟩
  · exact ⟨_, he⟩

theorem vm_locks_balanced_iff_kernel : ∃ s : VmState slabMachine, (vmRuns slabMachine).init s ∧
    let call := LockingCall.vmMmap vmMachineLayout.vaEnd vmMachineLayout.paEnd 1 4096 .io true
    call.Returns s s.kernVma ∧ .wLockBr s.kernVma ∈ call.ops slabMachineLocked s s.kernVma ∧
      (call.Balanced slabMachineLocked s s.kernVma ↔ ¬ call.LeavesReader s s.kernVma) := by
  obtain ⟨s, hs, hk, hret, hlock⟩ := slabMachine_locks
  exact ⟨s, hs, hret, hlock, vm_locks_balanced_iff slabMachineLocked s s.kernVma hk _⟩

/-- `vm_check` of an address space without a page table does not give the lock back. -/
theorem not_vm_locks_balanced :
    ¬ ∀ (x : VmState slabMachine) (vma : ℕ), vma ≠ 0 → ∀ call : LockingCall,
      call.Balanced slabMachineLocked x vma := by
  intro h
  obtain ⟨x, -, -, hk, hvmas, -⟩ := slabMachine_reset
  refine LockingCall.not_balanced hk ⟨rfl, .inl ?_⟩ (h x x.kernVma hk .vmCheck)
  rw [hvmas]
  rfl

end AcoOs
