/-
What a single call of `mm/vm.h` can rely on, and what it promises.

`translate` is what the hardware makes of an address.  In every run the mapping of the kernel
stays (`kernel_mapping`), a call that fails leaves everything visible as it was
(`vm_calls_atomic`), and the arguments pass the `ASSERT`s behind the wrappers unless a size
becomes 0 when it is rounded up (`vm_calls_validate`).

`vm_iomap` tests the range before the size is rounded up and with sums that wrap:
`vm_iomap_managed_iff` says when the managed memory stays out of reach all the same.
-/
import AcoOs.VmMachine
import AcoOs.PageTableCalls

namespace AcoOs

open Memory

variable {L : VmLayout} {A : VmEnv L}

/-! ### The translation of an address space -/

/-- The address of the frame and the permissions in an entry. -/
def pteFrame (pte : ℕ) : ℕ × ℕ := (sv39PTE2Pa pte, pte &&& 0x3ff)

theorem and_low_bits (n : ℕ) : n &&& 0x3ff = n % 1024 := by
  rw [show 0x3ff = 2 ^ 10 - 1 from rfl, Nat.and_two_pow_sub_one_eq_mod]

/-- An entry keeps the lower 56 bits of the address and the lower 10 bits of the permissions. -/
theorem pteFrame_pa2PTE {pa : ℕ} (prot : ℕ) (ha : pa % pageSize = 0) :
    pteFrame (sv39Pa2PTE pa prot) = (pa % 2 ^ 56, prot &&& 0x3ff) := by
  unfold pteFrame
  rw [and_low_bits, and_low_bits, sv39PTE2Pa_eq, sv39Pa2PTE_eq, Prod.mk.injEq]
  simp only [pageSize, pageOffset] at ha
  omega

theorem pteFrame_pte {area : VmaArea} (ha : area.pa % pageSize = 0) (w : ℕ) :
    pteFrame (area.pte w) =
      ((area.pa + (w - position 2 area.va) * pageSize) % 2 ^ 56, area.prot &&& 0x3ff) := by
  unfold VmaArea.pte
  rw [sv39Pa2PTE_advance, pteFrame_pa2PTE _ (by rw [Nat.add_mul_mod_self_right]; exact ha)]

namespace VmState

variable {x x' : VmState A} {v w a : ℕ}

/-- The frame and the permissions of the page of an address, where a valid entry is. -/
def translate (x : VmState A) (vma va : ℕ) : Option (ℕ × ℕ) :=
  match x.entry vma (position 2 va) with
  | none => none
  | some e => if PteValid e then some (pteFrame e) else none

theorem translate_eq_some {va : ℕ} {r : ℕ × ℕ} : x.translate v va = some r ↔
    ∃ e, x.entry v (position 2 va) = some e ∧ PteValid e ∧ pteFrame e = r := by
  unfold translate
  cases x.entry v (position 2 va) with
  | none => exact ⟨nofun, fun ⟨_, h, _⟩ => (nomatch h)⟩
  | some e =>
    dsimp only
    by_cases he : PteValid e
    · rw [if_pos he, Option.some.injEq]
      exact ⟨fun h => ⟨e, rfl, he, h⟩, fun ⟨_, h1, _, h2⟩ => by cases h1; exact h2⟩
    · rw [if_neg he]
      exact ⟨nofun, fun ⟨_, h1, h2, _⟩ => by cases h1; exact absurd h2 he⟩

theorem SameEntries.translate (h : x.SameEntries x' v) (va : ℕ) :
    x'.translate v va = x.translate v va := by
  refine Option.ext fun r => ?_
  rw [translate_eq_some, translate_eq_some]
  exact exists_congr fun e => ⟨fun ⟨h1, h2, h3⟩ => ⟨(h _ (position_lt 2 va) e h2).1 h1, h2, h3⟩,
    fun ⟨h1, h2, h3⟩ => ⟨(h _ (position_lt 2 va) e h2).2 h1, h2, h3⟩⟩

/-- A page of the kernel is translated by the fixed offset. -/
theorem KernelMapped.translate (h : x.KernelMapped v) {i : ℕ} (hi : i < L.pageNums) :
    x.translate v (L.vaStart + i * pageSize) =
      some (L.vaStart + i * pageSize - (L.vaStart - L.paStart),
        if i < L.seperate then vmProtV ||| vmProtX ||| vmProtR
        else vmProtV ||| vmProtW ||| vmProtR) := by
  have h1 := L.paEnd_le
  have h2 := L.paStart_le
  have h3 := L.paStart_aligned
  have hpa : (L.paStart + i * pageSize) % 2 ^ 56 =
      L.vaStart + i * pageSize - (L.vaStart - L.paStart) := by
    simp only [pageSize, pageOffset] at *
    omega
  have hzero := vaStart_position L (i := 0) (by omega)
  rw [Nat.zero_mul, Nat.add_zero, Nat.add_zero] at hzero
  rw [translate_eq_some, vaStart_position L hi]
  by_cases hsep : i < L.seperate
  · rw [if_pos hsep]
    refine ⟨_, h.textEntry _ (kernelText_covers.2 (by omega)), kernelText_valid L _, ?_⟩
    rw [pteFrame_pte h3, show position 2 (kernelText L).va = _ from hzero, Nat.add_sub_cancel_left,
      show (kernelText L).pa = L.paStart from rfl, hpa]
    exact congrArg (Prod.mk _)
      (show (vmProtV ||| vmProtX ||| vmProtR) &&& 0x3ff = vmProtV ||| vmProtX ||| vmProtR by decide)
  · rw [if_neg hsep]
    refine ⟨_, h.dataEntry _ (kernelData_covers.2 (by omega)), kernelData_valid L _, ?_⟩
    have hdata : (kernelData L).pa % pageSize = 0 := (Nat.add_mul_mod_self_right _ _ _).trans h3
    have hoff : (kernelData L).pa + (L.vaStart / pageSize + i - position 2 (kernelData L).va) *
        pageSize = L.paStart + i * pageSize := by
      rw [show position 2 (kernelData L).va = _ from vaStart_position L L.seperate_lt]
      show L.paStart + L.seperate * pageSize + _ = _
      rw [Nat.add_assoc, ← Nat.add_mul]
      congr 2
      omega
    rw [pteFrame_pte hdata, hoff, hpa]
    exact congrArg (Prod.mk _)
      (show (vmProtV ||| vmProtW ||| vmProtR) &&& 0x3ff = vmProtV ||| vmProtW ||| vmProtR by decide)

end VmState

open VmState

/-- In every run every address space keeps the areas of the kernel, and its page table goes on
translating the managed range. -/
theorem kernel_mapping (x : VmState A) (h : (vmRuns A).Reachable x) (v : ℕ)
    (hv : v ∈ x.live .vma) :
    (∃ a ∈ x.list v, x.areas a = kernelText L) ∧ (∃ a ∈ x.list v, x.areas a = kernelData L) ∧
    (x.vmas v).aRoot.toList = x.list v ∧
    ∀ i < L.pageNums, x.translate v (L.vaStart + i * pageSize) =
      some (L.vaStart + i * pageSize - (L.vaStart - L.paStart),
        if i < L.seperate then vmProtV ||| vmProtX ||| vmProtR
        else vmProtV ||| vmProtW ||| vmProtR) := by
  have hinv := inv_reachable h
  have hk := hinv.kernel v hv
  exact ⟨hk.text, hk.data, (hinv.vm.listed v hv).toList, fun i hi => hk.translate hi⟩

/-- A copy of the address space of the kernel, made after a `vm_mmap`: the last page of the
machine. -/
theorem kernel_mapping_copy : ∃ (s x y : VmState vmMachine) (v : ℕ), (vmRuns vmMachine).init s ∧
    s.vmMmap s.kernVma vmMachineLayout.vaEnd 0 7 = .ok (0, x) ∧
    x.vmaDup s.kernVma = .ok (v, y) ∧ v ≠ 0 ∧
    y.translate v (vmMachineLayout.vaStart + (2 ^ 22 - 1) * pageSize) =
      some (vmMachineLayout.paStart + (2 ^ 22 - 1) * pageSize,
        vmProtV ||| vmProtW ||| vmProtR) := by
  obtain ⟨s, x, y, text, data, p, a, v, hs, -, hx, -, -, -, hy, hv, hlive, hr⟩ := vmMachine_copy
  obtain ⟨-, -, -, h⟩ := kernel_mapping y hr v hlive
  exact ⟨s, x, y, v, hs, hx, hy, hv, h (2 ^ 22 - 1) (by decide)⟩

/-! ### Calls that fail -/

namespace VmState

variable {x x' : VmState A} {v w a : ℕ}

/-- No list, no tree, no area, no translation and no count of references changed, and the same
objects are handed out. -/
structure Unchanged (x x' : VmState A) : Prop where
  live : x'.live = x.live
  list : ∀ v ∈ x.live .vma, x'.list v = x.list v
  toList : ∀ v ∈ x.live .vma, (x'.vmas v).aRoot.toList = (x.vmas v).aRoot.toList
  areas : ∀ a ∈ x.live .vmaArea, x'.areas a = x.areas a
  translate : ∀ v ∈ x.live .vma, ∀ va, x'.translate v va = x.translate v va
  blocks : ∀ p, (x'.mem.pages p).pgtype = .vmaArea ↔ (x.mem.pages p).pgtype = .vmaArea
  refCount : ∀ p, (x.mem.pages p).pgtype = .vmaArea →
    (x'.mem.pages p).refCount = (x.mem.pages p).refCount

theorem Unchanged.refl (x : VmState A) : x.Unchanged x :=
  ⟨rfl, fun _ _ => rfl, fun _ _ => rfl, fun _ _ => rfl, fun _ _ _ => rfl, fun _ => Iff.rfl,
    fun _ _ => rfl⟩

theorem Refused.unchanged (hr : x.Refused x' v) (h : x.VmInv) : x.Unchanged x' := by
  have hpages : ∀ p, (x.mem.pages p).pgtype = .vmaArea → x'.mem.pages p = x.mem.pages p := by
    intro p hp
    obtain ⟨o, ho⟩ := h.spaces.backs p hp
    exact (hr.kept.backs p o ho).pages
  refine ⟨hr.live, fun w hw => (hr.sameSpace h hw).list, fun w _ => ?_, hr.areas,
    fun w hw va => (hr.sameSpace h hw).entries.translate va,
    fun p => ⟨hr.kept.types p, fun hp => ?_⟩, fun p hp => by rw [hpages p hp]⟩
  · by_cases hwv : w = v
    · rw [hwv]
      exact hr.toList
    · rw [hr.frame.vmas w hwv]
  · rw [hpages p hp]
    exact hp

theorem MapEnd.unchanged {area : VmaArea} {r : Except VmAssert (ℤ × VmState A)} {ret : ℤ}
    (he : x.MapEnd v area r) (h : x.VmInv) (hr : r = .ok (ret, x')) (hneg : ret < 0) :
    x.Unchanged x' := by
  cases he with
  | stopped => cases hr
  | refused _ href =>
    cases hr
    exact href.unchanged h
  | added =>
    cases hr
    omega

theorem UnmapEnd.unchanged {r : Except VmAssert (ℤ × VmState A)} {ret : ℤ}
    (he : x.UnmapEnd v r) (hr : r = .ok (ret, x')) (hneg : ret < 0) : x.Unchanged x' := by
  cases he with
  | stopped => cases hr
  | refused =>
    cases hr
    exact .refl x
  | removed =>
    cases hr
    omega

end VmState

namespace VmCall

/-- The calls that return an error number. -/
def IsVm : VmCall → Prop
  | vmaAlloc => False
  | vmaDup _ => False
  | vmaFree _ => False
  | vmIomap _ _ _ _ _ => True
  | vmIounmap _ _ _ => True
  | vmMmap _ _ _ _ => True
  | vmUnmap _ _ _ => True

/-- The block a call takes: its first page and its order. -/
def Takes (x : VmState A) (p o : ℕ) : VmCall → Prop
  | vmMmap vma va order _ => MmapAccepts L vma va order ∧
      (x.bkpAllocZero order).1 = some p ∧ order.toNat = o
  | _ => False

end VmCall

/-- A call that fails leaves everything visible as it was, and the block that `vm_mmap` took is
free again. -/
theorem vm_calls_atomic (x : VmState A) (h : (vmRuns A).Reachable x) (call : VmCall)
    (hc : call.Valid x) (hvm : call.IsVm) (ret : ℤ) (x' : VmState A)
    (hret : x.exec call = .ok (ret, x')) (hneg : ret < 0) : x.Unchanged x' ∧
      ∀ p o, call.Takes x p o →
        pagesOf p o ⊆ x'.mem.freePages ∧ (x'.mem.pages p).pgtype = .buddyAllocator := by
  have hinv := inv_reachable h
  obtain ⟨hwords, hvma⟩ := hc
  cases call with
  | vmaAlloc => cases hvm
  | vmaDup => cases hvm
  | vmaFree => cases hvm
  | vmIomap v va pa prot size =>
    refine ⟨?_, fun _ _ ht => ht.elim⟩
    change x.vmIomap v va pa prot size = .ok (ret, x') at hret
    rcases vmIomap_eq x v va pa prot size with ⟨-, ret', -, he⟩ | ⟨hacc, -⟩
    · rw [he] at hret
      cases hret
      exact .refl x
    · -- the tests pass, so the address space is not `NULL`
      have hv : v ∈ x.live .vma := hvma.resolve_left hacc.2.2.1
      exact (vmIomap_end hinv hv hacc hwords.1 hwords.2.1).unchanged hinv.vm hret hneg
  | vmIounmap v va size =>
    refine ⟨?_, fun _ _ ht => ht.elim⟩
    change x.vmIounmap v va size = .ok (ret, x') at hret
    rcases hvma with h0 | hv
    · obtain ⟨ret', -, he⟩ := vmIounmap_null (x := x) (show v = 0 from h0) va size
      rw [he] at hret
      cases hret
      exact .refl x
    · exact (vmIounmap_end hinv.vm hv va size).unchanged hret hneg
  | vmMmap v va order prot =>
    change x.vmMmap v va order prot = .ok (ret, x') at hret
    by_cases hacc : MmapAccepts L v va order
    · have hv : v ∈ x.live .vma := hvma.resolve_left hacc.1
      rcases vmMmap_cases hinv.vm hv hacc.2.1 hwords hacc.2.2 prot with
        ⟨y, hnone, he, href⟩ | ⟨p, z, hp, -, -, ⟨e, he, -⟩ | ⟨ret', y, he, -, href, hfree, htype⟩ |
          ⟨a, y, he, -⟩⟩
      · -- there was no block
        rw [he] at hret
        cases hret
        refine ⟨href.unchanged hinv.vm, fun p o ⟨_, hp, _⟩ => ?_⟩
        rw [hnone] at hp
        cases hp
      · rw [he] at hret
        cases hret
      · -- the block was not mapped and is given back
        rw [he] at hret
        cases hret
        refine ⟨href.unchanged hinv.vm, fun q o ⟨_, hq, ho⟩ => ?_⟩
        rw [hp] at hq
        cases hq
        rw [← ho]
        exact ⟨hfree, htype⟩
      · rw [he] at hret
        cases hret
        omega
    · rw [vmMmap_refuses hacc] at hret
      cases hret
      exact ⟨.refl x, fun _ _ ht => absurd ht.1 hacc⟩
  | vmUnmap v va order =>
    refine ⟨?_, fun _ _ ht => ht.elim⟩
    change x.vmUnmap v va order = .ok (ret, x') at hret
    rcases hvma with h0 | hv
    · have he : x.vmUnmap v va order = .ok (-efault, x) := if_pos (.inl h0)
      rw [he] at hret
      cases hret
      exact .refl x
    · exact (vmUnmap_end hinv.vm hv va order).unchanged hret hneg

/-- The second `vm_mmap` of a page of the kernel fails: the page it took is free again. -/
theorem vm_calls_atomic_twice : ∃ (s x y : VmState vmMachine) (p : ℕ),
    (vmRuns vmMachine).init s ∧ s.vmMmap s.kernVma vmMachineLayout.vaEnd 0 7 = .ok (0, x) ∧
    (x.bkpAllocZero 0).1 = some p ∧
    x.exec (.vmMmap s.kernVma vmMachineLayout.vaEnd 0 7) = .ok (-eexist, y) ∧
    x.Unchanged y ∧ p ∈ y.mem.freePages := by
  obtain ⟨s, x, text, data, r, a, hs, hb, hx, ha, hr, hn⟩ := vmMachine_mmap
  have hinv := inv_reachable hr
  have hk : s.kernVma ∈ x.live .vma := ha.frame.kernVma ▸ hinv.vm.kern_live
  have hsorted := hb.sorted.added hb.vm hb.vm.kern_live ha (vmMachine_page_low r).plain
  -- the area of the first call is in the way
  have hway : ∀ p, x.inTheWay s.kernVma (memoryArea vmMachineLayout vmMachineLayout.vaEnd p 0 7) ≠
      none := by
    intro p hno
    refine (hsorted.inTheWay_eq_none (hinv.vm.listed _ hk) (vmMachine_page_low p).plain).1 hno a
      (ha.mem_list.2 (.inl rfl)) ?_
    unfold VmaArea.Overlaps
    rw [ha.made]
    show vmMachineLayout.vaEnd < vmMachineLayout.vaEnd + 2 ^ 0 * pageSize ∧
      vmMachineLayout.vaEnd < vmMachineLayout.vaEnd + 2 ^ 0 * pageSize
    decide
  have hva : vmMachineLayout.vaEnd % pageSize = 0 := rfl
  obtain ⟨p, y, hp, hy⟩ := vmMmap_occupied vmMachine_ample hinv.vm hk hva (by decide) 7 hway
    (by omega)
  have hvalid : (VmCall.vmMmap s.kernVma vmMachineLayout.vaEnd 0 7).Valid x :=
    ⟨show _ < _ by decide, .inr hk⟩
  obtain ⟨hun, hback⟩ := vm_calls_atomic x hr _ hvalid trivial _ y hy (by decide)
  have hacc : MmapAccepts vmMachineLayout s.kernVma vmMachineLayout.vaEnd 0 :=
    ⟨hinv.vm.ne_zero hk, hva, by decide, by decide⟩
  exact ⟨s, x, y, p, hs, hx, hp, hy, hun, (hback p 0 ⟨hacc, hp, rfl⟩).1 (self_mem_pagesOf p 0)⟩

/-! ### The arguments behind the wrappers -/

/-- The tests of `vm_iounmap`. -/
def IounmapAccepts (L : VmLayout) (vma va size : ℕ) : Prop :=
  (L.vaEnd ≤ va ∨ (va + size) % 2 ^ 64 ≤ L.vaStart) ∧ vma ≠ 0 ∧ va % pageSize = 0

theorem VmState.vmIounmap_eq (x : VmState A) (v va size : ℕ) :
    (¬ IounmapAccepts L v va size ∧ ∃ ret < 0, x.vmIounmap v va size = .ok (ret, x)) ∨
    IounmapAccepts L v va size ∧
      x.vmIounmap v va size = x.vmUnmapInternal v va (pageUpperAlign size) .io := by
  unfold vmIounmap
  by_cases h1 : L.vaEnd ≤ va ∨ (va + size) % 2 ^ 64 ≤ L.vaStart
  swap
  · rw [if_pos h1]
    exact .inl ⟨fun h => h1 h.1, _, by decide, rfl⟩
  rw [if_neg (not_not.2 h1)]
  by_cases h2 : v = 0
  · rw [if_pos h2]
    exact .inl ⟨fun h => h.2.1 h2, _, by decide, rfl⟩
  rw [if_neg h2]
  by_cases h3 : va % pageSize = 0
  swap
  · rw [if_pos h3]
    exact .inl ⟨fun h => h3 h.2.2, _, by decide, rfl⟩
  rw [if_neg (not_not.2 h3)]
  exact .inr ⟨⟨h1, h2, h3⟩, rfl⟩

theorem pageUpperAlign_eq_zero {n : ℕ} (h : n < 2 ^ 64) :
    pageUpperAlign n = 0 ↔ n = 0 ∨ 2 ^ 64 - pageSize < n := by
  unfold pageUpperAlign
  simp only [pageSize, pageOffset]
  omega

/-- The call passes its own tests, and its size becomes 0 when it is rounded up. -/
def VmCall.RoundsToZero (L : VmLayout) : VmCall → Prop
  | .vmIomap vma va pa _ size => IomapAccepts L vma va pa size ∧ 2 ^ 64 - pageSize < size
  | .vmIounmap vma va size => IounmapAccepts L vma va size ∧ (size = 0 ∨ 2 ^ 64 - pageSize < size)
  | _ => False

/-- Only a size that becomes 0 when it is rounded up stops the kernel in an `ASSERT` on the
arguments. -/
theorem vm_calls_validate (x : VmState A) (h : (vmRuns A).Reachable x) (call : VmCall)
    (hc : call.Valid x) (hvm : call.IsVm) :
    x.exec call ≠ .error .argument ↔ ¬ call.RoundsToZero L := by
  have hinv := inv_reachable h
  obtain ⟨hwords, hvma⟩ := hc
  have hok : ∀ {r : Except VmAssert (ℤ × VmState A)} {y : ℤ × VmState A}, r = .ok y →
      r ≠ .error .argument := fun hr he => (nomatch hr.symm.trans he)
  refine not_congr ?_
  cases call with
  | vmaAlloc => cases hvm
  | vmaDup => cases hvm
  | vmaFree => cases hvm
  | vmIomap v va pa prot size =>
    change x.vmIomap v va pa prot size = .error .argument ↔ IomapAccepts L v va pa size ∧ _
    obtain ⟨hva, hpa, hsize⟩ := hwords
    rcases vmIomap_eq x v va pa prot size with ⟨hn, ret, -, he⟩ | ⟨hacc, he⟩
    · exact ⟨fun h => absurd h (hok he), fun h => absurd h.1 hn⟩
    · rw [he, and_iff_right hacc]
      have hzero := pageUpperAlign_eq_zero hsize
      rw [or_iff_right hacc.2.2.2.2.1] at hzero
      rw [← hzero]
      constructor
      · intro herr
        by_contra hne
        have hr := ioArea_request (x := x) hacc hva hpa (Nat.pos_of_ne_zero hne) prot
        rcases vmMmapInternal_cases hinv.vm (hvma.resolve_left hacc.2.2.1) hr with
          ⟨e, h1, hst⟩ | ⟨ret, x', h1, -⟩ | ⟨a, x', h1, -⟩
        · rw [show x.vmMmapInternal v va pa prot (pageUpperAlign size) .io true = _ from h1] at herr
          cases herr
          rcases hst with ⟨h2, -⟩ | ⟨h2, -⟩ <;> cases h2
        · exact hok h1 herr
        · exact hok h1 herr
      · -- `__vm_mmap` asserts a size that is not zero
        intro hz
        unfold vmMmapInternal
        rw [if_neg fun hc => absurd hc.2.1 (by omega)]
  | vmIounmap v va size =>
    change x.vmIounmap v va size = .error .argument ↔ IounmapAccepts L v va size ∧ _
    obtain ⟨hva, hsize⟩ := hwords
    rcases vmIounmap_eq x v va size with ⟨hn, ret, -, he⟩ | ⟨hacc, he⟩
    · exact ⟨fun h => absurd h (hok he), fun h => absurd h.1 hn⟩
    · rw [he, and_iff_right hacc, ← pageUpperAlign_eq_zero hsize]
      constructor
      · intro herr
        by_contra hne
        rcases vmUnmapInternal_cases hinv.vm (hvma.resolve_left hacc.2.1) hacc.2.2
          (pageUpperAlign_aligned size) (Nat.pos_of_ne_zero hne)
          (show VmarType.io ≠ .kernel by decide) with
          ⟨-, h1⟩ | ⟨a, -, -, -, -, ⟨-, h1⟩ | ⟨-, ⟨h1, -⟩ | ⟨x', h1, -⟩⟩⟩
        · exact hok h1 herr
        · exact hok h1 herr
        · cases h1.symm.trans herr
        · exact hok h1 herr
      · intro hz
        unfold vmUnmapInternal
        rw [if_neg fun hc => absurd hc.2.1 (by omega)]
  | vmMmap v va order prot =>
    change x.vmMmap v va order prot = .error .argument ↔ False
    rw [iff_false]
    by_cases hacc : MmapAccepts L v va order
    · rcases vmMmap_cases hinv.vm (hvma.resolve_left hacc.1) hacc.2.1 hwords hacc.2.2
        prot with ⟨y, -, he, -⟩ | ⟨p, z, -, -, -, ⟨e, he, hst⟩ | ⟨ret, y, he, -⟩ |
          ⟨a, y, he, -⟩⟩
      · exact hok he
      · intro herr
        cases he.symm.trans herr
        rcases hst with ⟨h2, -⟩ | ⟨h2, -⟩ <;> cases h2
      · exact hok he
      · exact hok he
    · exact hok (vmMmap_refuses hacc)
  | vmUnmap v va order =>
    change x.vmUnmap v va order = .error .argument ↔ False
    rw [iff_false]
    unfold vmUnmap
    by_cases h1 : v = 0 ∨ va % pageSize ≠ 0 ∨ (x.vmas v).kernelVma ≠ x.kernVma ∨
        ¬ (0 ≤ order ∧ order < L.maxOrder)
    · rw [if_pos h1]
      exact hok rfl
    · rw [if_neg h1]
      rw [not_or, not_or, not_not] at h1
      have hpos : 0 < 1 <<< order.toNat * pageSize := by
        rw [Nat.one_shiftLeft]
        exact Nat.mul_pos (Nat.two_pow_pos _) (by decide)
      rcases vmUnmapInternal_cases hinv.vm (hvma.resolve_left h1.1) h1.2.1
        (Nat.mul_mod_left _ _) hpos (show VmarType.memory ≠ .kernel by decide) with
        ⟨-, he⟩ | ⟨a, -, -, -, -, ⟨-, he⟩ | ⟨-, ⟨he, -⟩ | ⟨x', he, -⟩⟩⟩
      · exact hok he
      · exact hok he
      · intro herr
        cases he.symm.trans herr
      · exact hok he

/-- `vm_iounmap` of one page that is not mapped. -/
theorem vm_calls_validate_boot : ∃ s : VmState vmMachine, (vmRuns vmMachine).Reachable s ∧
    s.exec (.vmIounmap s.kernVma 0 4096) ≠ .error .argument := by
  obtain ⟨s, text, data, hs, hb, -⟩ := vmMachine_boots
  have hvalid : (VmCall.vmIounmap s.kernVma 0 4096).Valid s :=
    ⟨⟨by norm_num, by norm_num⟩, .inr hb.vm.kern_live⟩
  refine ⟨s, .of_init hs, (vm_calls_validate s (.of_init hs) _ hvalid trivial).2 ?_⟩
  rintro ⟨-, h | h⟩
  · cases h
  · exact absurd h (by decide)

/-- `vm_iounmap` of nothing stops the kernel. -/
theorem vm_iounmap_stops : ∃ s : VmState vmMachine, (vmRuns vmMachine).Reachable s ∧
    (VmCall.vmIounmap s.kernVma 0 0).Valid s ∧
    s.exec (.vmIounmap s.kernVma 0 0) = .error .argument := by
  obtain ⟨s, text, data, hs, hb, -⟩ := vmMachine_boots
  refine ⟨s, .of_init hs, ⟨⟨by norm_num, by norm_num⟩, .inr hb.vm.kern_live⟩, ?_⟩
  rcases vmIounmap_eq s s.kernVma 0 0 with ⟨hn, -⟩ | ⟨-, he⟩
  · exact absurd ⟨.inr (Nat.zero_le _), hb.vm.ne_zero hb.vm.kern_live, rfl⟩ hn
  · show s.vmIounmap s.kernVma 0 0 = _
    rw [he]
    unfold vmUnmapInternal
    rw [if_neg fun hc => absurd hc.2.1 (by decide)]

/-! ### The managed memory and `vm_iomap` -/

/-- Consecutive pages on a circle of `M` pages miss the pages from `s` to `e`. -/
theorem circle_misses_iff {M s e a n : ℕ} (hse : s < e) (he : e ≤ M) (ha : a < M) (hn : 0 < n) :
    (∀ i < n, ¬ (s ≤ (a + i) % M ∧ (a + i) % M < e)) ↔
      e ≤ a ∧ a + n ≤ M + s ∨ a + n ≤ s := by
  constructor
  · intro h
    by_contra hor
    by_cases hea : e ≤ a
    · refine h (M + s - a) (by omega) ?_
      rw [show a + (M + s - a) = s + M by omega, Nat.add_mod_right, Nat.mod_eq_of_lt (by omega)]
      omega
    · refine h (s - a) (by omega) ?_
      rw [Nat.mod_eq_of_lt (by omega)]
      omega
  · intro h i hi hin
    by_cases hlt : a + i < M
    · rw [Nat.mod_eq_of_lt hlt] at hin
      omega
    · rw [Nat.mod_eq_sub_mod (by omega), Nat.mod_eq_of_lt (by omega)] at hin
      omega

/-- The same in bytes: the addresses of the pages wrap at `M`. -/
theorem pages_miss_iff {M s e a size : ℕ} (hse : s < e) (he : e ≤ M) (ha : a < M)
    (hM : M % pageSize = 0) (hs : s % pageSize = 0) (he' : e % pageSize = 0)
    (ha' : a % pageSize = 0) (hsize : size % pageSize = 0) (hpos : 0 < size) :
    (∀ i < size / pageSize,
      ¬ (s ≤ (a + i * pageSize) % M ∧ (a + i * pageSize) % M < e)) ↔
      e ≤ a ∧ a + size ≤ M + s ∨ a + size ≤ s := by
  obtain ⟨M, rfl⟩ := Nat.dvd_of_mod_eq_zero hM
  obtain ⟨s, rfl⟩ := Nat.dvd_of_mod_eq_zero hs
  obtain ⟨e, rfl⟩ := Nat.dvd_of_mod_eq_zero he'
  obtain ⟨a, rfl⟩ := Nat.dvd_of_mod_eq_zero ha'
  obtain ⟨n, rfl⟩ := Nat.dvd_of_mod_eq_zero hsize
  have hpage : 0 < pageSize := by decide
  have hmod : ∀ i, (pageSize * a + i * pageSize) % (pageSize * M) = pageSize * ((a + i) % M) := by
    intro i
    rw [Nat.mul_comm i, ← Nat.mul_add, Nat.mul_mod_mul_left]
  rw [Nat.mul_div_cancel_left _ hpage]
  simp only [hmod, ← Nat.mul_add, Nat.mul_le_mul_left_iff hpage, Nat.mul_lt_mul_left hpage]
  exact circle_misses_iff (Nat.lt_of_mul_lt_mul_left hse) (Nat.le_of_mul_le_mul_left he hpage)
    (Nat.lt_of_mul_lt_mul_left ha) (Nat.pos_of_mul_pos_left hpos)

/-- The range of `size` bytes at `a` misses the one from `s` to `e`, where addresses wrap at
`M`. -/
def Misses (M s e a size : ℕ) : Prop := e ≤ a ∧ a + size ≤ M + s ∨ a + size ≤ s

/-- A mapping that `vm_iomap` has made leaves the managed memory alone just when its rounded
range misses it, as do the lower 56 bits of the physical range. -/
theorem vm_iomap_managed_iff (x : VmState A) (v va pa prot size : ℕ)
    (hc : (VmCall.vmIomap v va pa prot size).Valid x) (x' : VmState A)
    (hret : x.exec (.vmIomap v va pa prot size) = .ok (0, x')) :
    (∀ i < pageUpperAlign size / pageSize, ¬ L.vaValid ((va + i * pageSize) % 2 ^ 64) ∧
      ¬ L.paValid (sv39PTE2Pa (sv39Pa2PTE ((pa + i * pageSize) % 2 ^ 64) prot))) ↔
    Misses (2 ^ 64) L.vaStart L.vaEnd va (pageUpperAlign size) ∧
      Misses (2 ^ 56) L.paStart L.paEnd (pa % 2 ^ 56) (pageUpperAlign size) := by
  obtain ⟨⟨hva, hpa, -⟩, hvma⟩ := hc
  change x.vmIomap v va pa prot size = .ok (0, x') at hret
  rcases x.vmIomap_eq v va pa prot size with ⟨-, ret, hneg, he⟩ | ⟨hacc, he⟩
  · rw [he] at hret
    cases hret
    omega
  have hpos : 0 < pageUpperAlign size := by
    by_contra h0
    rw [he] at hret
    unfold vmMmapInternal at hret
    rw [if_neg fun hc => h0 hc.2.1] at hret
    cases hret
  have hva0 := hacc.2.2.2.2.2
  have hpa0 : pa % pageSize = 0 := hacc.2.2.2.1.symm.trans hva0
  have hrange : L.vaStart < L.vaEnd ∧ L.vaEnd ≤ 2 ^ 64 ∧ L.vaEnd % pageSize = 0 := by
    have h1 := L.vaStart_aligned
    have h2 := L.vaEnd_le
    have h3 := L.seperate_lt
    show _ < L.vaStart + L.pageNums * pageSize ∧ L.vaStart + L.pageNums * pageSize ≤ _ ∧ _
    unfold Layout.vaEnd
    simp only [pageSize, pageOffset] at *
    omega
  have hrange' : L.paStart < L.paEnd ∧ L.paEnd ≤ 2 ^ 56 ∧ L.paEnd % pageSize = 0 := by
    have h1 := L.paStart_aligned
    have h2 := L.paEnd_le
    have h3 := L.seperate_lt
    unfold VmLayout.paEnd
    simp only [pageSize, pageOffset] at *
    omega
  -- an entry keeps 56 bits of an address
  have hframe : ∀ i, sv39PTE2Pa (sv39Pa2PTE ((pa + i * pageSize) % 2 ^ 64) prot) =
      (pa % 2 ^ 56 + i * pageSize) % 2 ^ 56 := by
    intro i
    rw [sv39PTE2Pa_eq, sv39Pa2PTE_eq]
    simp only [pageSize, pageOffset] at *
    omega
  have hsize := pageUpperAlign_aligned size
  have hpa56 : pa % 2 ^ 56 % pageSize = 0 := by
    simp only [pageSize, pageOffset] at *
    omega
  have hmiss := pages_miss_iff hrange.1 hrange.2.1 hva (by decide) L.vaStart_aligned hrange.2.2
    hva0 hsize hpos
  have hmiss' := pages_miss_iff hrange'.1 hrange'.2.1 (Nat.mod_lt pa (Nat.two_pow_pos 56))
    (by decide) L.paStart_aligned hrange'.2.2 hpa56 hsize hpos
  rw [show Misses (2 ^ 64) L.vaStart L.vaEnd va _ ↔ _ from hmiss.symm,
    show Misses (2 ^ 56) L.paStart L.paEnd _ _ ↔ _ from hmiss'.symm]
  simp only [hframe]
  exact forall₂_and

/-- One page right behind the managed range of a machine of 16 GiB. -/
theorem vmMachine_iomap (pa : ℕ) (hpa : pa % pageSize = 0) (hlt : pa < 2 ^ 64)
    (hmanaged : vmMachineLayout.paEnd ≤ pa) : ∃ s x' : VmState vmMachine,
      (vmRuns vmMachine).Reachable s ∧
      (VmCall.vmIomap s.kernVma vmMachineLayout.vaEnd pa 7 4096).Valid s ∧
      s.exec (.vmIomap s.kernVma vmMachineLayout.vaEnd pa 7 4096) = .ok (0, x') := by
  obtain ⟨s, text, data, hs, hb, hfree⟩ := vmMachine_boots
  have hk := hb.vm.kern_live
  have hacc : IomapAccepts vmMachineLayout s.kernVma vmMachineLayout.vaEnd pa 4096 :=
    ⟨.inl le_rfl, .inl hmanaged, hb.vm.ne_zero hk, hpa.symm, by norm_num, rfl⟩
  have hr := ioArea_request (x := s) hacc (by decide) hlt (by decide) 7
  obtain ⟨hway, hno⟩ := vmMachine_behind hb (show (ioArea _ pa 7 4096).va = _ from rfl) rfl
  obtain ⟨a, x', he, -⟩ := vmMmapInternal_succeeds vmMachine_ample hb.vm hk hr
    (show 0 ≤ toInt32 (pageUpperAlign 4096 / pageSize) by decide) hway hno (by omega)
  refine ⟨s, x', .of_init hs, ⟨⟨by decide, hlt, by norm_num⟩, .inr hk⟩, ?_⟩
  rcases s.vmIomap_eq s.kernVma vmMachineLayout.vaEnd pa 7 4096 with ⟨hn, -⟩ | ⟨-, h⟩
  · exact absurd hacc hn
  · exact h.trans he

/-- The frame behind the managed memory. -/
theorem vm_iomap_managed_apart : ∃ s x' : VmState vmMachine, (vmRuns vmMachine).Reachable s ∧
    s.exec (.vmIomap s.kernVma vmMachineLayout.vaEnd vmMachineLayout.paEnd 7 4096) = .ok (0, x') ∧
    ∀ i < pageUpperAlign 4096 / pageSize,
      ¬ vmMachineLayout.vaValid ((vmMachineLayout.vaEnd + i * pageSize) % 2 ^ 64) ∧
      ¬ vmMachineLayout.paValid
        (sv39PTE2Pa (sv39Pa2PTE ((vmMachineLayout.paEnd + i * pageSize) % 2 ^ 64) 7)) := by
  obtain ⟨s, x', hs, hvalid, hret⟩ := vmMachine_iomap vmMachineLayout.paEnd rfl (by decide) le_rfl
  refine ⟨s, x', hs, hret, (vm_iomap_managed_iff s _ _ _ 7 4096 hvalid x' hret).2 ⟨?_, ?_⟩⟩
  · exact .inl (by decide)
  · exact .inl (by decide)

/-- The first managed frame, at an address that differs from its own in bit 56 only. -/
theorem vm_iomap_exposes : ∃ s x' : VmState vmMachine, (vmRuns vmMachine).Reachable s ∧
    (VmCall.vmIomap s.kernVma vmMachineLayout.vaEnd (2 ^ 56 + vmMachineLayout.paStart) 7
      4096).Valid s ∧
    s.exec (.vmIomap s.kernVma vmMachineLayout.vaEnd (2 ^ 56 + vmMachineLayout.paStart) 7 4096) =
      .ok (0, x') ∧
    ¬ ∀ i < pageUpperAlign 4096 / pageSize,
      ¬ vmMachineLayout.vaValid ((vmMachineLayout.vaEnd + i * pageSize) % 2 ^ 64) ∧
      ¬ vmMachineLayout.paValid
        (sv39PTE2Pa
          (sv39Pa2PTE ((2 ^ 56 + vmMachineLayout.paStart + i * pageSize) % 2 ^ 64) 7)) := by
  obtain ⟨s, x', hs, hvalid, hret⟩ := vmMachine_iomap (2 ^ 56 + vmMachineLayout.paStart) rfl
    (by decide) (by decide)
  exact ⟨s, x', hs, hvalid, hret, fun h => (h 0 (by decide)).2 (by decide)⟩

end AcoOs
