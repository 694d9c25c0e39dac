/-
A CPU that is alone goes through a call as the call was defined.

`VmState.exec` runs a call to its end; `VmPc.advance` executes it one section at a time.  When the
other CPUs are idle nobody is in the way, so the sections of a call that returns follow one another
and end in the state that `exec` gives (`exec_sections`).  Every state of a sequential run is
therefore one that any number of CPUs reach together (`reachable_of_vmRuns`).
-/
import AcoOs.VmCpus
import AcoOs.VmCalls

namespace AcoOs

open Memory Machine VmState

variable {L : VmLayout} {A : VmEnv L}

namespace VmPc

/-- Sections that a CPU executes one after another, each of them where `P` holds. -/
def Sections (P : VmState A → VmPc → Prop) : VmState A × VmPc → VmState A × VmPc → Prop :=
  Relation.ReflTransGen fun s t => P s.1 s.2 ∧ advance s.1 s.2 = some t

variable {P Q : VmState A → VmPc → Prop} {x x' y : VmState A} {pc pc' : VmPc}
  {s t u : VmState A × VmPc} {v a p : ℕ} {ret : ℤ} {area : VmaArea} {own : Option ℕ} {whole : Bool}
  {caller : VmCaller}

theorem Sections.mono (h : Sections P s t) (hPQ : ∀ x pc, P x pc → Q x pc) : Sections Q s t :=
  Relation.ReflTransGen.mono (fun s _ hs => ⟨hPQ s.1 s.2 hs.1, hs.2⟩) s t h

/-- One section, and what comes after it. -/
theorem Sections.after (h : Sections P t u) (hP : P x pc) (hs : advance x pc = some t) :
    Sections P (x, pc) u := Relation.ReflTransGen.head ⟨hP, hs⟩ h

theorem Sections.one (hP : P x pc) (hs : advance x pc = some t) : Sections P (x, pc) t :=
  Relation.ReflTransGen.single ⟨hP, hs⟩

/-! ### Single sections -/

theorem advance_taken {order : ℤ} (h : x.claimBlock p order = .ok y) :
    advance x (taken caller v area p order) = some (y, adding caller v area (some p)) := by
  unfold advance
  dsimp only
  rw [h]

theorem advance_hanging (h : x.vmaAreaHang v a = (ret, y)) : advance x (hanging caller v a own) =
    if ret ≠ 0 then some (y, discarding caller v a own) else some (y, hung caller v a own) := by
  unfold advance
  dsimp only
  rw [h]

theorem advance_clearing (h : x.hwUnmapArea v (x.areas a) = .ok y) :
    advance x (clearing whole v a) = some (y, cleared whole v a) := by
  unfold advance
  dsimp only
  rw [h]

/-! ### `__vm_mmap` -/

theorem hwMmapArea_areas (h : x.hwMmapArea v area = .ok (ret, y)) : y.areas = x.areas := by
  unfold hwMmapArea at h
  split at h
  · cases h
  · split at h
    · cases h
    · cases h
      rfl

theorem ofCallee_eq_ok {α : Type*} {o : Option α} {b : α} : ofCallee o = .ok b ↔ o = some b := by
  cases o with
  | none => exact ⟨nofun, nofun⟩
  | some c => exact ⟨fun h => by cases h; rfl, fun h => by cases h; rfl⟩

/-- Where `__vm_mmap` goes on after the callback. -/
def afterCallback (y : VmState A) (caller : VmCaller) (v a : ℕ) (own : Option ℕ) (ret : ℤ) :
    VmState A × VmPc :=
  if ret = 0 then (y, caller.done v) else (y.vmaAreaUnhang v a, discarding caller v a own)

/-- The two ways to say what is left to do when `hw_mmap` returned. -/
theorem countNext_eq {r : ℤ} (h : x.afterHwMmap a r = .ok (ret, y)) :
    countNext x caller v a own r = some (afterCallback y caller v a own ret) := by
  unfold afterHwMmap at h
  unfold countNext afterCallback
  by_cases hex : r = -eexist
  · rw [if_pos hex] at h
    cases h
  rw [if_neg hex] at h ⊢
  by_cases h0 : r = 0
  swap
  · rw [if_pos h0] at h ⊢
    cases h
    rw [if_neg h0]
  rw [if_neg (not_not.2 h0)] at h ⊢
  by_cases ht : (x.areas a).vmarTyp = .memory
  · rw [if_pos ht] at h ⊢
    by_cases hok : x.BlockOk (L.pa2pg (x.areas a).pa) (x.areas a)
    · rw [if_pos hok] at h
      cases h
      dsimp only
      rw [if_pos hok, if_pos rfl]
    · rw [if_neg hok] at h
      cases h
  · rw [if_neg ht] at h ⊢
    cases h
    rw [if_pos rfl]

/-- The callback of an area that is not memory. -/
theorem mmapKernelIoHwCb_ok (ht : (x.areas a).vmarTyp ≠ .memory)
    (h : x.mmapKernelIoHwCb v a = .ok (ret, y)) : ∃ r z,
      x.hwMmapArea v (x.areas a) = .ok (r, z) ∧ z.afterHwMmap a r = .ok (ret, y) := by
  unfold mmapKernelIoHwCb at h
  rcases hmap : x.hwMmapArea v (x.areas a) with e | ⟨r, z⟩
  · rw [hmap] at h
    cases h
  · rw [hmap] at h
    refine ⟨r, z, rfl, ?_⟩
    unfold afterHwMmap
    rw [hwMmapArea_areas hmap, if_neg ht, ← ite_not]
    dsimp only at h
    by_cases h0 : r = 0
    · rw [h0] at h ⊢
      exact h
    · rw [if_pos h0]
      exact h

/-- The callback of an area of memory. -/
theorem mmapMemoryCb_ok (hpgfm : (x.areas a).pgfm = none) (hlazy : (x.areas a).pa ≠ paLazy)
    (ht : (x.areas a).vmarTyp = .memory) (h : x.mmapMemoryCb v a = .ok (ret, y)) :
    L.paValid (x.areas a).pa ∧ ∃ r z,
      x.hwMmapArea v (x.areas a) = .ok (r, z) ∧ z.afterHwMmap a r = .ok (ret, y) := by
  unfold mmapMemoryCb at h
  rw [if_pos hpgfm, if_neg hlazy] at h
  by_cases hvalid : L.paValid (x.areas a).pa
  swap
  · rw [if_neg hvalid] at h
    cases h
  rw [if_pos hvalid] at h
  rcases hmap : x.hwMmapArea v (x.areas a) with e | ⟨r, z⟩
  · rw [hmap] at h
    cases h
  · rw [hmap] at h
    refine ⟨hvalid, r, z, rfl, ?_⟩
    unfold afterHwMmap
    rw [hwMmapArea_areas hmap, if_pos ht, ← ite_not, ← hwMmapArea_areas hmap]
    exact h

/-- A callback that enters the area in the page table. -/
theorem enterNext_eq (hpgfm : (x.areas a).pgfm = none)
    (hlazy : (x.areas a).vmarTyp = .memory → (x.areas a).pa ≠ paLazy)
    (h : hwMapCallbacks (x.areas a).vmarTyp x v a = .ok (ret, y)) : ∃ r z,
      enterNext x caller v a own = some (z, entered caller v a own r) ∧
      z.afterHwMmap a r = .ok (ret, y) := by
  have hmap : ((x.areas a).vmarTyp = .memory → L.paValid (x.areas a).pa) ∧ ∃ r z,
      x.hwMmapArea v (x.areas a) = .ok (r, z) ∧ z.afterHwMmap a r = .ok (ret, y) := by
    cases ht : (x.areas a).vmarTyp with
    | kernel =>
      rw [ht] at h
      exact ⟨nofun, mmapKernelIoHwCb_ok (by rw [ht]; nofun) h⟩
    | io =>
      rw [ht] at h
      exact ⟨nofun, mmapKernelIoHwCb_ok (by rw [ht]; nofun) h⟩
    | memory =>
      rw [ht] at h
      obtain ⟨hvalid, hrest⟩ := mmapMemoryCb_ok hpgfm (hlazy ht) ht h
      exact ⟨fun _ => hvalid, hrest⟩
  obtain ⟨hvalid, r, z, hz, hafter⟩ := hmap
  refine ⟨r, z, ?_, hafter⟩
  unfold enterNext
  rw [if_neg fun hc => hc.2 hpgfm, if_neg fun hc => hlazy hc.1 hc.2,
    if_neg fun hc => hc.2 (hvalid hc.1), hz]

/-- The callback, and `vma_area_unhang` when it fails. -/
theorem callback_sections (hP : ∀ x pc, pc.removes = none → P x pc)
    (hpgfm : (x.areas a).pgfm = none)
    (h : hwMapCallbacks (x.areas a).vmarTyp x v a = .ok (ret, y)) :
    Sections P (x, hung caller v a own) (afterCallback y caller v a own ret) := by
  by_cases hlazy : (x.areas a).vmarTyp = .memory ∧ (x.areas a).pa = paLazy
  · -- a lazy area is not entered
    rw [hlazy.1] at h
    change x.mmapMemoryCb v a = _ at h
    unfold mmapMemoryCb at h
    rw [if_pos hpgfm, if_pos hlazy.2] at h
    cases h
    refine .one (hP _ _ rfl) ?_
    show enterNext x caller v a own = _
    unfold enterNext
    rw [if_neg fun hc => hc.2 hpgfm, if_pos hlazy]
    rfl
  · obtain ⟨r, z, henter, hafter⟩ := enterNext_eq hpgfm (fun ht hp => hlazy ⟨ht, hp⟩) h
    have hcount : advance z (entered caller v a own r) = _ := countNext_eq hafter
    exact (Sections.one (hP _ _ rfl) hcount).after (hP _ _ rfl) henter

/-- The label `free_vma_area`. -/
theorem freeVmaArea_sections (hP : ∀ x pc, pc.removes = none → P x pc) {r : ℤ} (hr : r ≠ 0)
    (h : x.freeVmaArea a r = .ok (ret, x')) : Sections P (x, discarding caller v a own)
      (x', if ret = 0 then caller.done v else failed caller v own) := by
  unfold freeVmaArea at h
  cases hobj : x.objFree .vmaArea a with
  | none =>
    rw [hobj] at h
    cases h
  | some w =>
    rw [hobj] at h
    cases h
    rw [if_neg hr]
    exact .one (hP _ _ rfl) (Option.map_eq_some_iff.2 ⟨x', hobj, rfl⟩)

/-- `__vm_mmap` with an area object in hand. -/
theorem mmapArea_sections (hP : ∀ x pc, pc.removes = none → P x pc)
    (hpgfm : (x.areas a).pgfm = none)
    (h : x.mmapArea v a (x.areas a).vmarTyp true = .ok (ret, x')) :
    Sections P (x, hanging caller v a own)
      (x', if ret = 0 then caller.done v else failed caller v own) := by
  have hareas : (x.vmaAreaHang v a).2.areas = x.areas := by
    unfold vmaAreaHang
    split
    · rfl
    · rfl
  unfold mmapArea at h
  rcases hhang : x.vmaAreaHang v a with ⟨r, z⟩
  have hadv : advance x (hanging caller v a own) = _ := advance_hanging hhang
  rw [hhang] at h hareas
  dsimp only at h hareas
  by_cases hr : r ≠ 0
  · -- something is in the way
    rw [if_pos hr] at h hadv
    exact (freeVmaArea_sections hP hr h).after (hP _ _ rfl) hadv
  rw [if_neg hr] at h hadv
  refine Sections.after ?_ (hP _ _ rfl) hadv
  rw [if_pos rfl, ← hareas] at h
  cases hcb : hwMapCallbacks (z.areas a).vmarTyp z v a with
  | error e =>
    rw [hcb] at h
    cases h
  | ok ry =>
    obtain ⟨r', y⟩ := ry
    rw [hcb] at h
    dsimp only at h
    refine (callback_sections hP (by rw [hareas]; exact hpgfm) hcb).trans ?_
    unfold afterCallback
    by_cases h0 : r' = 0
    · rw [if_neg (not_not.2 h0)] at h
      cases h
      rw [if_pos h0, if_pos rfl]
    · rw [if_pos h0] at h
      rw [if_neg h0]
      exact freeVmaArea_sections hP h0 h

/-- `__vm_mmap`. -/
theorem vmMmapInternal_sections (hP : ∀ x pc, pc.removes = none → P x pc) (caller : VmCaller)
    (own : Option ℕ) (hpgfm : area.pgfm = none)
    (h : x.vmMmapInternal v area.va area.pa area.prot area.size area.vmarTyp true = .ok (ret, x')) :
    Sections P (x, adding caller v area own)
      (x', if ret = 0 then caller.done v else failed caller v own) := by
  have hadv : advance x (adding caller v area own) = addNext x caller v area own := rfl
  unfold vmMmapInternal at h
  unfold addNext at hadv
  by_cases hargs : v ≠ 0 ∧ 0 < area.size ∧ area.va % pageSize = 0 ∧ area.pa % pageSize = 0 ∧
      area.size % pageSize = 0
  swap
  · rw [if_neg hargs] at h
    cases h
  rw [if_pos hargs] at h hadv
  rcases hobj : x.objAlloc .vmaArea with ⟨_ | a, y⟩
  · rw [hobj] at h hadv
    cases h
    exact .one (hP _ _ rfl) hadv
  · rw [hobj] at h hadv
    refine Sections.after ?_ (hP _ _ rfl) hadv
    have heq : (y.setArea a area).areas a = area := Function.update_self _ _ _
    have harea : (⟨area.vmarTyp, area.va, area.size, area.pa, none, area.prot⟩ : VmaArea) =
        area := by
      rw [← hpgfm]
    refine mmapArea_sections hP (by rw [heq]; exact hpgfm) ?_
    rw [heq]
    rwa [← harea]

/-! ### `__vm_unmap` and `vma_free` -/

/-- The last reference is dropped, and then the block is given back. -/
theorem dropBlock_last (whole : Bool) (v : ℕ) (hp : (x.areas a).pgfm = some p)
    (hlazy : (x.areas a).pa ≠ paLazy) (href : (x.mem.pages p).refCount = 1)
    (h : x.dropBlock p a = .ok y) : ∃ z,
      advance x (unhung whole v a) = some (z, freeing whole v a p) ∧
      advance z (freeing whole v a p) = some (y, clearing whole v a) := by
  have hadv : advance x (unhung whole v a) = dropNext x whole v a := rfl
  unfold dropNext at hadv
  rw [hp] at hadv
  unfold dropBlock at h
  by_cases hok : x.BlockOk p (x.areas a)
  swap
  · rw [if_neg hok] at h
    cases h
  rw [if_pos hok] at h
  dsimp only at h hadv
  have h0 : (x.mem.pages p).refCount - 1 = 0 := by omega
  rw [if_pos ⟨hlazy, hok⟩, if_pos h0] at hadv
  rw [if_pos h0] at h
  refine ⟨_, hadv, ?_⟩
  split at h
  · cases h
  · rename_i m hm
    cases h
    exact Option.map_eq_some_iff.2 ⟨m, hm, rfl⟩

/-- `unmmap_memory_cb` up to the call of `hw_unmap`. -/
theorem dropBlock_sections (hP : ∀ x pc, P x pc) (hp : (x.areas a).pgfm = some p)
    (hlazy : (x.areas a).pa ≠ paLazy) (h : x.dropBlock p a = .ok y) :
    Sections P (x, unhung whole v a) (y, clearing whole v a) := by
  by_cases href : (x.mem.pages p).refCount = 1
  · obtain ⟨z, h1, h2⟩ := dropBlock_last whole v hp hlazy href h
    exact (Sections.one (hP _ _) h2).after (hP _ _) h1
  · have hadv : advance x (unhung whole v a) = dropNext x whole v a := rfl
    unfold dropNext at hadv
    rw [hp] at hadv
    unfold dropBlock at h
    by_cases hok : x.BlockOk p (x.areas a)
    swap
    · rw [if_neg hok] at h
      cases h
    rw [if_pos hok] at h
    dsimp only at h hadv
    have h0 : ¬ (x.mem.pages p).refCount - 1 = 0 := by omega
    rw [if_pos ⟨hlazy, hok⟩, if_neg h0] at hadv
    rw [if_neg h0] at h
    cases h
    exact .one (hP _ _) hadv

/-- `hw_unmap`. -/
theorem hwUnmapArea_sections (hP : ∀ x pc, P x pc) (h : x.hwUnmapArea v (x.areas a) = .ok y) :
    Sections P (x, clearing whole v a) (y, cleared whole v a) := .one (hP _ _) (advance_clearing h)

/-- What is left of an area after `vma_area_unhang`. -/
theorem removeArea_sections (hP : ∀ x pc, P x pc) (whole : Bool) {typ : VmarType}
    (h : x.removeArea v a typ = .ok x') :
    Sections P (x.vmaAreaUnhang v a, if typ = .memory then unhung whole v a
      else clearing whole v a) (x', if whole then emptying v else idle) := by
  unfold removeArea at h
  generalize x.vmaAreaUnhang v a = y at h ⊢
  cases hcb : hwUnmapCallbacks typ y v a with
  | error e =>
    rw [hcb] at h
    cases h
  | ok z =>
    rw [hcb] at h
    have hfree : Sections P (z, cleared whole v a) (x', if whole then emptying v else idle) := by
      refine .one (hP _ _) ?_
      exact Option.map_eq_some_iff.2 ⟨x', ofCallee_eq_ok.1 h, rfl⟩
    refine Relation.ReflTransGen.trans ?_ hfree
    cases typ with
    | kernel => exact hwUnmapArea_sections hP hcb
    | io => exact hwUnmapArea_sections hP hcb
    | memory =>
      rw [if_pos rfl]
      change y.unmmapMemoryCb v a = _ at hcb
      unfold unmmapMemoryCb at hcb
      by_cases hlazy : (y.areas a).pa = paLazy
      · rw [if_pos hlazy] at hcb
        by_cases hnone : (y.areas a).pgfm = none
        · rw [if_pos hnone] at hcb
          cases hcb
          refine Sections.one (hP _ _) ?_
          show dropNext y whole v a = _
          unfold dropNext
          rw [hnone]
          exact if_pos hlazy
        · rw [if_neg hnone] at hcb
          cases hcb
      · rw [if_neg hlazy] at hcb
        cases hp : (y.areas a).pgfm with
        | none =>
          rw [hp] at hcb
          cases hcb
        | some p =>
          rw [hp] at hcb
          dsimp only at hcb
          cases hdrop : y.dropBlock p a with
          | error e =>
            rw [hdrop] at hcb
            cases hcb
          | ok w =>
            rw [hdrop] at hcb
            exact (dropBlock_sections hP hp hlazy hdrop).trans (hwUnmapArea_sections hP hcb)

/-- The loop of `vma_free`. -/
theorem freeAreas_sections (hP : ∀ x pc, P x pc) (l : List ℕ) (x : VmState A) (hinv : x.VmInv)
    (hv : v ∈ x.live .vma) (hne : v ≠ x.kernVma) (hl : x.list v = l)
    (h : x.freeAreas v l = .ok y) :
    Sections P (x, emptying v) (y, emptying v) ∧ y.list v = [] := by
  induction l generalizing x with
  | nil =>
    cases h
    exact ⟨.refl, hl⟩
  | cons a l ih =>
    have ha : a ∈ x.list v := by
      rw [hl]
      exact List.mem_cons_self
    have hout : ∀ w, (x.areas a).Covers w → ¬ x.pin v w := by
      intro w _
      rw [VmInv.pin_eq_noPin hne]
      exact id
    rw [freeAreas] at h
    rcases removeArea_cases hinv hv ha hout with ⟨herr, -⟩ | ⟨z, hz, hr⟩
    · rw [herr] at h
      cases h
    · rw [hz] at h
      have hlist : z.list v = l := by rw [hr.list, hl, List.erase_cons_head]
      obtain ⟨hs, hnil⟩ := ih z (hr.inv hinv hv ha) (by rw [hr.frame.liveVma]; exact hv)
        (by rw [hr.frame.kernVma]; exact hne) hlist h
      refine ⟨Sections.after ((removeArea_sections hP true hz).trans hs) (hP _ _) ?_,
        hnil⟩
      show emptyNext x v = _
      unfold emptyNext
      rw [hl]

/-- `vma_free` of an address space that is not the one of the kernel. -/
theorem vmaFree_sections (hP : ∀ x pc, P x pc) (hinv : x.VmInv) (hv : v ∈ x.live .vma)
    (hne : v ≠ x.kernVma) (h : x.vmaFree v = .ok x') : Sections P (x, emptying v) (x', idle) := by
  unfold vmaFree at h
  rw [if_neg (hinv.ne_zero hv), if_neg hne, if_neg (not_not.2 (hinv.kernelVma v hv))] at h
  cases hf : x.freeAreas v (x.vmas v).lList with
  | error e =>
    rw [hf] at h
    cases h
  | ok y =>
    rw [hf] at h
    dsimp only at h
    obtain ⟨hs, hnil⟩ := freeAreas_sections hP _ x hinv hv hne rfl hf
    cases hall : y.hwUnmapAll v with
    | error e =>
      rw [hall] at h
      cases h
    | ok z =>
      rw [hall] at h
      refine hs.trans (Sections.after (.one (hP _ _) ?_) (hP _ _) (t := (z, closing v)) ?_)
      · exact Option.map_eq_some_iff.2 ⟨x', ofCallee_eq_ok.1 h, rfl⟩
      · show emptyNext y v = _
        unfold emptyNext
        rw [hnil, hall]

/-- `__vm_unmap`. -/
theorem vmUnmapInternal_sections (hP : ∀ x pc, P x pc) {va size : ℕ} {typ : VmarType}
    (h : x.vmUnmapInternal v va size typ = .ok (ret, x')) : ∃ s,
      unhangNext x v va size typ = some s ∧ Sections P s (x', idle) := by
  unfold vmUnmapInternal at h
  unfold unhangNext
  by_cases hargs : v ≠ 0 ∧ 0 < size ∧ va % pageSize = 0 ∧ size % pageSize = 0
  swap
  · rw [if_neg hargs] at h
    cases h
  rw [if_pos hargs] at h ⊢
  cases hf : x.findArea v va size with
  | none =>
    rw [hf] at h
    cases h
    exact ⟨_, rfl, .refl⟩
  | some a =>
    rw [hf] at h
    dsimp only at h ⊢
    by_cases hfits : (x.areas a).va = va ∧ (x.areas a).size = size
    swap
    · rw [if_neg hfits] at h
      cases h
    rw [if_pos hfits] at h ⊢
    by_cases ht : (x.areas a).vmarTyp ≠ typ
    · rw [if_pos ht] at h ⊢
      cases h
      exact ⟨_, rfl, .refl⟩
    rw [if_neg ht] at h ⊢
    cases hr : x.removeArea v a typ with
    | error e =>
      rw [hr] at h
      cases h
    | ok y =>
      rw [hr] at h
      cases h
      exact ⟨_, rfl, removeArea_sections hP false hr⟩

/-! ### `vm_mmap` and `vma_dup` -/

/-- A call that has failed gives its block back. -/
theorem failed_sections (hP : ∀ x pc, pc.removes = none → P x pc)
    (h : x.returnBlock p = .ok x') : Sections P (x, failed .mmap v (some p)) (x', idle) := by
  unfold returnBlock at h
  refine Sections.after (.one (hP _ _ rfl) ?_) (hP _ _ rfl) rfl
  split at h
  · cases h
  · rename_i m hm
    cases h
    exact Option.map_eq_some_iff.2 ⟨m, hm, rfl⟩

/-- `vm_mmap`. -/
theorem vmMmap_sections (hP : ∀ x pc, pc.removes = none → P x pc) {va prot : ℕ} {order : ℤ}
    (h : x.vmMmap v va order prot = .ok (ret, x')) : ∃ s,
      start x (.vmMmap v va order prot) = some s ∧ Sections P s (x', idle) := by
  unfold vmMmap at h
  unfold start
  dsimp only
  by_cases hargs : v = 0 ∨ va % pageSize ≠ 0 ∨ ¬ (0 ≤ order ∧ order < L.maxOrder)
  · rw [if_pos hargs] at h ⊢
    cases h
    exact ⟨_, rfl, .refl⟩
  rw [if_neg hargs] at h ⊢
  rcases hb : x.bkpAllocZero order with ⟨_ | p, y⟩
  · rw [hb] at h
    cases h
    exact ⟨_, rfl, .refl⟩
  rw [hb, Nat.one_shiftLeft] at h
  refine ⟨_, rfl, ?_⟩
  dsimp only at h
  cases hc : y.claimBlock p order with
  | error e =>
    rw [hc] at h
    cases h
  | ok z =>
    rw [hc] at h
    dsimp only at h
    refine Sections.after ?_ (hP _ _ rfl) (advance_taken hc)
    cases hm : z.vmMmapInternal v va (L.pg2pa p) prot (2 ^ order.toNat * pageSize) .memory
        true with
    | error e =>
      rw [hm] at h
      cases h
    | ok ry =>
      obtain ⟨r, w⟩ := ry
      rw [hm] at h
      dsimp only at h
      have hpgfm : (memoryArea L va p order.toNat prot).pgfm = none := rfl
      have hs := vmMmapInternal_sections hP .mmap (some p) hpgfm hm
      by_cases hr : r ≠ 0
      · rw [if_pos hr] at h
        rw [if_neg hr] at hs
        cases hret : w.returnBlock p with
        | error e =>
          rw [hret] at h
          cases h
        | ok y' =>
          rw [hret] at h
          cases h
          exact hs.trans (failed_sections hP hret)
      · rw [if_neg hr] at h
        rw [if_pos (not_not.1 hr)] at hs
        cases h
        exact hs

/-- The copy of an area, with the block `own` if it is a new one. -/
theorem copyArea_sections (hP : ∀ x pc, pc.removes = none → P x pc) {w pa : ℕ} {rest : List ℕ}
    {ok : Bool} (h : x.copyArea v area pa = .ok (ok, x')) :
    Sections P (x, adding (.dup w rest) v { area with pa := pa, pgfm := none } own)
      (x', if ok then copying w v rest else failed (.dup w rest) v own) := by
  unfold copyArea at h
  cases hm : x.vmMmapInternal v area.va pa area.prot area.size area.vmarTyp true with
  | error e =>
    rw [hm] at h
    cases h
  | ok ry =>
    obtain ⟨r, y⟩ := ry
    rw [hm] at h
    cases h
    have hpgfm : ({ area with pa := pa, pgfm := none } : VmaArea).pgfm = none := rfl
    have hs := vmMmapInternal_sections hP (.dup w rest) own hpgfm hm
    by_cases hr : r = 0
    · rw [if_pos hr] at hs
      rw [decide_eq_true hr]
      exact hs
    · rw [if_neg hr] at hs
      rw [decide_eq_false hr]
      exact hs

/-- A copy that keeps its pages. -/
theorem copyShared_sections (hP : ∀ x pc, pc.removes = none → P x pc) {w : ℕ} {rest : List ℕ}
    {ok : Bool} (h : x.copyArea v area area.pa = .ok (ok, x')) :
    Sections P (x, adding (.dup w rest) v { area with pgfm := none } none)
      (x', if ok then copying w v rest else emptying v) := by
  refine (copyArea_sections hP h).trans ?_
  cases ok with
  | true => exact .refl
  | false => exact Sections.one (hP _ _ rfl) rfl

/-- A copy with a new block. -/
theorem copyBlock_sections (hP : ∀ x pc, pc.removes = none → P x pc) {w p : ℕ} {order : ℤ}
    {rest : List ℕ} {ok : Bool} (hb : x.bkpAllocZero order = (some p, y))
    (h : x.copyBlock v area order = .ok (ok, x')) :
    Sections P (y, taken (.dup w rest) v { area with pa := L.pg2pa p, pgfm := none } p order)
      (x', if ok then copying w v rest else emptying v) := by
  unfold copyBlock at h
  rw [hb] at h
  dsimp only at h
  cases hc : y.claimBlock p order with
  | error e =>
    rw [hc] at h
    cases h
  | ok z =>
    rw [hc] at h
    refine Sections.after ?_ (hP _ _ rfl) (advance_taken hc)
    dsimp only at h
    cases hcopy : z.copyArea v area (L.pg2pa p) with
    | error e =>
      rw [hcopy] at h
      cases h
    | ok ry =>
      obtain ⟨ok', z'⟩ := ry
      rw [hcopy] at h
      refine (copyArea_sections hP hcopy).trans ?_
      cases ok' with
      | true =>
        cases h
        exact .refl
      | false =>
        dsimp only at h
        split at h
        · cases h
        · rename_i m hm
          cases h
          refine Sections.after (.one (hP _ _ rfl) ?_) (hP _ _ rfl) rfl
          exact Option.map_eq_some_iff.2 ⟨m, hm, rfl⟩

/-- The body of the loop of `vma_dup`. -/
theorem dupArea_sections (hP : ∀ x pc, pc.removes = none → P x pc) {w b : ℕ} {rest : List ℕ}
    {ok : Bool} (h : x.dupArea v (x.areas b) = .ok (ok, x')) :
    Sections P (x, copying w v (b :: rest)) (x', if ok then copying w v rest else emptying v) := by
  have hadv : advance x (copying w v (b :: rest)) = copyNext x w v b rest := rfl
  have hbare : (x.areas b).pgfm = none → { x.areas b with pgfm := none } = x.areas b := fun hn => by
    rw [← hn]
  have hshared : ∀ area : VmaArea, { x.areas b with pgfm := none } = area →
      advance x (copying w v (b :: rest)) = some (x, adding (.dup w rest) v area none) →
      x.copyArea v (x.areas b) (x.areas b).pa = .ok (ok, x') →
      Sections P (x, copying w v (b :: rest))
        (x', if ok then copying w v rest else emptying v) := by
    rintro area rfl hs hcopy
    exact (copyShared_sections hP hcopy).after (hP _ _ rfl) hs
  unfold dupArea at h
  unfold copyNext at hadv
  dsimp only at hadv
  split at h
  · rename_i ht
    rw [ht] at hadv
    dsimp only at hadv
    dsimp only at h
    split_ifs at h with hargs hlazy hnone hsome hw horder
    · rw [if_pos hargs, if_pos hlazy, if_pos hnone] at hadv
      exact hshared _ (hbare hnone) hadv h
    · -- an area that can be written gets a block of its own
      rw [if_pos hargs, if_neg hlazy, if_pos hsome, if_pos hw, if_pos horder] at hadv
      rcases hb : x.bkpAllocZero (pgnum2order L.maxOrder (toInt32 ((x.areas b).size / pageSize)))
        with ⟨_ | p, y⟩
      · rw [hb] at hadv
        unfold copyBlock at h
        rw [hb] at h
        cases h
        exact .one (hP _ _ rfl) hadv
      · rw [hb, ← ht] at hadv
        exact (copyBlock_sections hP hb h).after (hP _ _ rfl) hadv
    · rw [if_pos hargs, if_neg hlazy, if_pos hsome, if_neg hw] at hadv
      refine hshared _ ?_ hadv h
      rw [← ht]
  · rename_i ht
    split_ifs at h with hargs
    rw [if_pos hargs] at hadv
    refine hshared _ (hbare hargs.2.2.2.2) ?_ h
    cases hty : (x.areas b).vmarTyp with
    | memory => exact absurd hty ht
    | kernel => rwa [hty] at hadv
    | io => rwa [hty] at hadv

/-- The loop of `vma_dup`. -/
theorem dupAreas_sections (hP : ∀ x pc, pc.removes = none → P x pc) {w : ℕ} {ok : Bool}
    (l : List ℕ) (x : VmState A) (h : x.dupAreas v l = .ok (ok, x')) :
    Sections P (x, copying w v l) (x', if ok then idle else emptying v) := by
  induction l generalizing x with
  | nil =>
    cases h
    exact .one (hP _ _ rfl) rfl
  | cons b l ih =>
    rw [dupAreas] at h
    cases hd : x.dupArea v (x.areas b) with
    | error e =>
      rw [hd] at h
      cases h
    | ok ry =>
      obtain ⟨ok', y⟩ := ry
      rw [hd] at h
      refine (dupArea_sections hP hd).trans ?_
      cases ok' with
      | true => exact ih y h
      | false =>
        cases h
        exact .refl

/-- `vma_dup`, with an empty page table for the copy. -/
theorem opened_sections (hP : ∀ x pc, P x pc) (hinv : x.VmInv) {w r pg : ℕ} {z : VmState A}
    (hw : w ∈ x.live .vma) (hopen : x.Opened z v pg)
    (h : (match z.dupAreas v (z.list w) with
      | .error e => .error e
      | .ok (true, x) => .ok (v, x)
      | .ok (false, x) =>
        match x.vmaFree v with
        | .error e => .error e
        | .ok x => .ok (0, x)) = (.ok (r, x') : Except VmAssert (ℕ × VmState A))) :
    Sections P (z, opened w v) (x', idle) := by
  have hvz : v ∈ z.live .vma := by
    rw [hopen.live]
    exact Finset.mem_insert_self v _
  have hlive : ∀ b ∈ z.list w, b ∈ z.live .vmaArea := by
    intro b hb
    refine hopen.inv.mem_live (v := w) ?_ hb
    rw [hopen.live]
    exact Finset.mem_insert_of_mem hw
  rcases dupAreas_cases (z.list w) z hopen.inv hvz hlive with ⟨e, he, -⟩ | ⟨ok, y, hy, hd⟩
  · rw [he] at h
    cases h
  rw [hy] at h
  have hP' : ∀ (x : VmState A) pc, pc.removes = none → P x pc := fun x pc _ => hP x pc
  refine Sections.after ((dupAreas_sections hP' _ z hy).trans ?_) (hP _ _) rfl
  cases ok with
  | true =>
    cases h
    exact .refl
  | false =>
    -- what has been made is freed again
    have hg := hd.grown hopen.inv hvz
    have hne : v ≠ y.kernVma := by
      rw [hg.frame.kernVma, hopen.kernVma]
      exact fun he => hopen.fresh (he ▸ hinv.kern_live)
    dsimp only at h
    cases hf : y.vmaFree v with
    | error e =>
      rw [hf] at h
      cases h
    | ok y' =>
      rw [hf] at h
      cases h
      exact vmaFree_sections hP hg.inv (by rw [hg.frame.liveVma]; exact hvz) hne hf

/-- `vma_dup`. -/
theorem vmaDup_sections (hP : ∀ x pc, P x pc) (hinv : x.VmInv) {w r : ℕ}
    (hw : w = 0 ∨ w ∈ x.live .vma) (h : x.vmaDup w = .ok (r, x')) :
    Sections P (makeNext x w) (x', idle) := by
  unfold vmaDup at h
  unfold makeNext
  by_cases hargs : w = 0 ∨ (x.vmas w).kernelVma ≠ x.kernVma ∨ (x.vmas w).hwPgtable = none
  · rw [if_pos hargs] at h ⊢
    cases h
    exact .refl
  rw [if_neg hargs] at h ⊢
  have hw := hw.resolve_left fun h0 => hargs (.inl h0)
  rcases ho : x.objAlloc .vma with ⟨_ | v, y⟩
  · rw [ho] at h
    cases h
    exact .refl
  rw [ho] at h
  dsimp only at h ⊢
  by_cases hzero : (y.vmas v).hwPgtable = none ∧ (y.vmas v).kernelVma = 0
  swap
  · rw [if_neg hzero] at h
    cases h
  rw [if_pos hzero] at h
  have hadv : advance y (made w v) = _ := if_pos hzero
  rcases hb : y.bkpAllocZero 0 with ⟨_ | pg, z⟩
  · rw [hb] at h hadv
    refine Sections.after (.one (hP _ _) ?_) (hP _ _) hadv
    dsimp only at h
    split at h
    · cases h
    · rename_i hobj
      cases h
      exact Option.map_eq_some_iff.2 ⟨x', hobj, rfl⟩
  rw [hb] at h hadv
  have hopen := opened_spec hinv ho hb
  have hlist : (z.setVma v ⟨some pg, z.kernVma, .nil, []⟩).list w = (z.vmas w).lList := by
    have hwv : w ≠ v := fun he => hopen.fresh (he ▸ hw)
    show (Function.update z.vmas v _ w).lList = _
    rw [Function.update_of_ne hwv]
  dsimp only at h
  rw [← hlist] at h
  exact (opened_sections hP hinv hw hopen h).after (hP _ _) hadv

/-! ### The calls -/

theorem map_eq_ok {α β : Type*} {f : α → β} {r : Except VmAssert α} {b : β}
    (h : r.map f = .ok b) : ∃ c, r = .ok c ∧ f c = b := by
  cases r with
  | error e => cases h
  | ok c => exact ⟨c, rfl, Except.ok.inj h⟩

/-- `vma_free`, with its tests. -/
theorem vmaFree_call_sections (hP : ∀ x pc, P x pc) (hinv : x.VmInv)
    (hv : v = 0 ∨ v ∈ x.live .vma) (h : x.vmaFree v = .ok x') :
    ∃ s, start x (.vmaFree v) = some s ∧ Sections P s (x', idle) := by
  unfold start
  dsimp only
  by_cases hargs : v = 0 ∨ v = x.kernVma ∨ (x.vmas v).kernelVma ≠ x.kernVma
  · have hsame : x.vmaFree v = .ok x := by
      unfold vmaFree
      rcases hargs with h0 | h0 | h0
      · rw [if_pos h0]
      · rw [if_pos h0, ite_self]
      · rw [if_pos h0, ite_self, ite_self]
    rw [h] at hsame
    cases hsame
    exact ⟨_, if_pos hargs, .refl⟩
  · refine ⟨_, if_neg hargs, vmaFree_sections hP hinv ?_ (fun he => hargs (.inr (.inl he))) h⟩
    exact hv.resolve_left fun h0 => hargs (.inl h0)

/-- `vm_iomap`. -/
theorem vmIomap_sections (hP : ∀ x pc, pc.removes = none → P x pc) {va pa prot size : ℕ}
    (h : x.vmIomap v va pa prot size = .ok (ret, x')) :
    ∃ s, start x (.vmIomap v va pa prot size) = some s ∧ Sections P s (x', idle) := by
  unfold start
  dsimp only
  rcases vmIomap_eq x v va pa prot size with ⟨hn, r, -, he⟩ | ⟨hacc, he⟩
  · rw [he] at h
    cases h
    exact ⟨_, if_neg hn, .refl⟩
  · rw [he] at h
    refine ⟨_, if_pos hacc, ?_⟩
    have hpgfm : (ioArea va pa prot size).pgfm = none := rfl
    have hs := vmMmapInternal_sections hP .mmap none hpgfm h
    by_cases hr : ret = 0
    · rwa [if_pos hr] at hs
    · rw [if_neg hr] at hs
      exact hs.trans (Sections.one (hP _ _ rfl) rfl)

/-- `vm_iounmap`. -/
theorem vmIounmap_sections (hP : ∀ x pc, P x pc) {va size : ℕ}
    (h : x.vmIounmap v va size = .ok (ret, x')) :
    ∃ s, start x (.vmIounmap v va size) = some s ∧ Sections P s (x', idle) := by
  unfold start
  dsimp only
  rcases vmIounmap_eq x v va size with ⟨hn, r, -, he⟩ | ⟨⟨h1, h2, h3⟩, he⟩
  · rw [he] at h
    cases h
    refine ⟨_, if_pos ?_, .refl⟩
    by_contra hc
    obtain ⟨h1, h2⟩ := not_or.1 hc
    obtain ⟨h2, h3⟩ := not_or.1 h2
    exact hn ⟨not_not.1 h1, h2, not_not.1 h3⟩
  · rw [he] at h
    rw [if_neg (not_or.2 ⟨not_not.2 h1, not_or.2 ⟨h2, not_not.2 h3⟩⟩)]
    exact vmUnmapInternal_sections hP h

/-- `vm_unmap`. -/
theorem vmUnmap_sections (hP : ∀ x pc, P x pc) {va : ℕ} {order : ℤ}
    (h : x.vmUnmap v va order = .ok (ret, x')) :
    ∃ s, start x (.vmUnmap v va order) = some s ∧ Sections P s (x', idle) := by
  unfold start
  dsimp only
  unfold vmUnmap at h
  by_cases hargs : v = 0 ∨ va % pageSize ≠ 0 ∨ (x.vmas v).kernelVma ≠ x.kernVma ∨
      ¬ (0 ≤ order ∧ order < L.maxOrder)
  · rw [if_pos hargs] at h ⊢
    cases h
    exact ⟨_, rfl, .refl⟩
  · rw [if_neg hargs] at h ⊢
    exact vmUnmapInternal_sections hP h

/-- The sections of a call that returns, one after another. -/
theorem exec_sections (hP : ∀ x pc, P x pc) (hinv : x.VmInv) {call : VmCall}
    (hvma : call.vma = 0 ∨ call.vma ∈ x.live .vma) (h : x.exec call = .ok (ret, x')) :
    ∃ s, start x call = some s ∧ Sections P s (x', idle) := by
  have hP' : ∀ (x : VmState A) pc, pc.removes = none → P x pc := fun x pc _ => hP x pc
  cases call with
  | vmaAlloc =>
    obtain ⟨⟨r, y⟩, hr, he⟩ := map_eq_ok h
    cases he
    exact ⟨_, rfl, vmaDup_sections hP hinv (.inr hinv.kern_live) hr⟩
  | vmaDup w =>
    obtain ⟨⟨r, y⟩, hr, he⟩ := map_eq_ok h
    cases he
    exact ⟨_, rfl, vmaDup_sections hP hinv hvma hr⟩
  | vmaFree v =>
    obtain ⟨y, hy, he⟩ := map_eq_ok h
    cases he
    exact vmaFree_call_sections hP hinv hvma hy
  | vmIomap v va pa prot size => exact vmIomap_sections hP' h
  | vmIounmap v va size => exact vmIounmap_sections hP h
  | vmMmap v va order prot => exact vmMmap_sections hP' h
  | vmUnmap v va order => exact vmUnmap_sections hP h

end VmPc

namespace VmCpus

open VmPc

variable {ι : Type} {σ : VmCpus A ι} {i : ι} {P : VmState A → VmPc → Prop}
  {x x' : VmState A} {pc : VmPc} {ret : ℤ}

/-- Nobody is in the way of a CPU when the others are idle. -/
theorem admits_of_idle (h : ∀ j, j ≠ i → σ.pc j = .idle) (pc : VmPc) : σ.Admits i pc := by
  intro j hj
  rw [h j hj]
  exact ⟨⟨nofun, nofun, nofun⟩, fun _ _ => nofun, fun _ _ => nofun, fun _ _ => List.not_mem_nil⟩

variable [DecidableEq ι]

/-- The sections of one CPU are a run of all of them when the others are idle. -/
theorem reachable_sections {s : VmState A × VmPc}
    (hσ : ((vmCpus A ι).restrict fun σ e => P σ.st (σ.pc e.1)).Reachable σ)
    (hidle : ∀ j, j ≠ i → σ.pc j = .idle) (h : Sections P (σ.st, σ.pc i) s) :
    ((vmCpus A ι).restrict fun σ e => P σ.st (σ.pc e.1)).Reachable (σ.moved i s.1 s.2) := by
  induction h with
  | refl =>
    have hsame : σ.moved i σ.st (σ.pc i) = σ := by
      unfold moved
      rw [Function.update_eq_self]
    rwa [hsame]
  | @tail s t _ hs ih =>
    obtain ⟨hP, hadv⟩ := hs
    have hpc : (σ.moved i s.1 s.2).pc i = s.2 := Function.update_self (β := fun _ => VmPc) _ _ _
    have hothers : ∀ j, j ≠ i → (σ.moved i s.1 s.2).pc j = .idle := fun j hj => by
      rw [← hidle j hj]
      exact Function.update_of_ne (β := fun _ => VmPc) hj _ _
    have hmoved : (σ.moved i s.1 s.2).moved i t.1 t.2 = σ.moved i t.1 t.2 := by
      unfold moved
      rw [Function.update_idem]
    rw [← hmoved]
    refine ih.step (a := (i, .advance)) ⟨?_, .advance ?_ (admits_of_idle hothers t.2)⟩
    · show P s.1 ((σ.moved i s.1 s.2).pc i)
      rw [hpc]
      exact hP
    · rw [hpc]
      exact hadv

/-- A call of one CPU while the others are idle. -/
theorem reachable_call (call : VmCall) {s : VmState A × VmPc}
    (hσ : ((vmCpus A ι).restrict fun σ e => P σ.st (σ.pc e.1)).Reachable σ)
    (hidle : ∀ j, σ.pc j = .idle) (hwords : call.Words)
    (hvma : call.vma = 0 ∨ call.vma ∈ σ.st.tabled) (hP : P σ.st .idle)
    (hs : start σ.st call = some s) (h : Sections P s (x', pc)) :
    ((vmCpus A ι).restrict fun σ e => P σ.st (σ.pc e.1)).Reachable (σ.moved i x' pc) := by
  have hothers : ∀ j, j ≠ i → (σ.moved i s.1 s.2).pc j = .idle := fun j hj => by
    rw [← hidle j]
    exact Function.update_of_ne (β := fun _ => VmPc) hj _ _
  have hpc : (σ.moved i s.1 s.2).pc i = s.2 := Function.update_self (β := fun _ => VmPc) _ _ _
  have hmoved : (σ.moved i s.1 s.2).moved i x' pc = σ.moved i x' pc := by
    unfold moved
    rw [Function.update_idem]
  rw [← hmoved]
  refine reachable_sections (s := (x', pc)) (hσ.step (a := (i, .call call)) ⟨?_, .call (hidle i)
    hwords hvma hs (admits_of_idle (fun j _ => hidle j) s.2)⟩) hothers ?_
  · show P σ.st (σ.pc i)
    rw [hidle i]
    exact hP
  · rw [hpc]
    exact h

/-- The states of a sequential run. -/
def sequential (ι : Type) (x : VmState A) : VmCpus A ι := ⟨x, ∅, fun _ => .idle⟩

theorem tabled_eq (h : x.VmInv) : x.tabled = x.live .vma :=
  Finset.filter_true_of_mem fun v hv => by
    rw [h.hwPgtable v hv]
    nofun

/-- Every state of a sequential run is one that the CPUs reach together. -/
theorem reachable_of_vmRuns [Nonempty ι] (h : (vmRuns A).Reachable x) :
    (vmCpus A ι).Reachable (sequential ι x) := by
  obtain ⟨i⟩ := ‹Nonempty ι›
  refine System.Reachable.of_restrict (P := fun _ _ => True) ?_
  refine h.invariant (P := fun x => ((vmCpus A ι).restrict fun _ _ => True).Reachable
    (sequential ι x)) (fun x hx => .of_init ⟨hx, rfl, fun _ => rfl⟩) fun x call x' hx hr hs => ?_
  obtain ⟨⟨hwords, hvma⟩, ret, hexec⟩ := hs
  have hinv := (inv_reachable hx).vm
  obtain ⟨s, hs, hsec⟩ := exec_sections (P := fun _ _ => True) (fun _ _ => trivial) hinv hvma hexec
  have hend := reachable_call (i := i) (P := fun _ _ => True) call hr (fun _ => rfl) hwords
    (by rw [← tabled_eq hinv] at hvma; exact hvma) trivial hs hsec
  have hsame : (sequential ι x).moved i x' .idle = sequential ι x' := by
    unfold moved sequential
    rw [Function.update_eq_self]
  rwa [hsame] at hend

end VmCpus

end AcoOs
