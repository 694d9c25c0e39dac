/-
Runs with low ranges.

When every range that is asked for lies below `2 ^ 39` and is to be valid, the areas of an address
space always agree, so every address space stays tidy:

* **`vma_lists`** — the list of an address space is sorted, the tree has its order, a search finds
  every area, and `vm_check` returns 0;
* **`vm_translation`** — what the page table of an address space translates is the union of its
  areas.
-/
import AcoOs.VmTidy

namespace AcoOs

open Memory

variable {L : VmLayout} {A : VmEnv L} {area : VmaArea}

namespace VmCall

/-- The range that a call asks for lies below `2 ^ 39` and is to be valid. -/
def Low : VmCall → Prop
  | vmIomap _ va _ prot size => va + size ≤ 2 ^ 39 ∧ prot &&& vmProtV ≠ 0
  | vmMmap _ va order prot => va + 2 ^ order.toNat * pageSize ≤ 2 ^ 39 ∧ prot &&& vmProtV ≠ 0
  | _ => True

/-- The physical addresses that a call asks for lie below `2 ^ 56`. -/
def LowPa : VmCall → Prop
  | vmIomap _ _ pa _ size => pa + size ≤ 2 ^ 56
  | _ => True

end VmCall

/-- An area below `2 ^ 39` that is valid. -/
structure VmaArea.LowValid (area : VmaArea) : Prop where
  low : area.Low
  valid : area.prot &&& vmProtV ≠ 0

/-- Also its physical addresses are ones that an entry can hold. -/
structure VmaArea.Mappable (area : VmaArea) : Prop where
  lowValid : area.LowValid
  pa_le : area.vmarTyp ≠ .memory → area.pa + area.size ≤ 2 ^ 56

theorem pageUpperAlign_add_le {n size : ℕ} {k : ℕ} (hk : 12 ≤ k) (hk' : k ≤ 56)
    (hn : n % pageSize = 0) (h : n + size ≤ 2 ^ k) : n + pageUpperAlign size ≤ 2 ^ k := by
  have hdvd : pageSize ∣ 2 ^ k := pow_dvd_pow 2 hk
  have hle : 2 ^ k ≤ 2 ^ 56 := Nat.pow_le_pow_right Nat.two_pos hk'
  obtain ⟨m, hm⟩ := hdvd
  unfold pageUpperAlign
  rw [hm] at h hle ⊢
  simp only [pageSize, pageOffset] at *
  rw [Nat.mod_eq_of_lt (by omega)]
  omega

namespace VmState

variable {x x' s : VmState A} {v u a : ℕ} {call : VmCall} {P : VmaArea → Prop}

theorem hereditary_lowValid : Hereditary VmaArea.LowValid where
  pgfm _ _ h := ⟨h.low, h.valid⟩
  copy area area' hc h := by
    refine ⟨?_, by rw [hc.prot]; exact h.valid⟩
    have hlow := h.low
    unfold VmaArea.Low at *
    rwa [hc.va, hc.size]

theorem hereditary_mappable : Hereditary VmaArea.Mappable where
  pgfm _ _ h := ⟨hereditary_lowValid.pgfm _ _ h.lowValid, h.pa_le⟩
  copy area area' hc h := by
    refine ⟨hereditary_lowValid.copy _ _ hc h.lowValid, fun ht => ?_⟩
    rw [hc.vmarTyp] at ht
    rw [hc.shared ht]
    exact h.pa_le ht

/-- What a low call asks for is low. -/
theorem Added.lowValid (ha : x.Added x' v a area) (hask : x.Asks v area call) (hlow : call.Low) :
    area.LowValid := by
  have hok := ha.inv.areaOk a (by rw [ha.live]; exact Finset.mem_insert_self _ _)
  rw [ha.made] at hok
  cases call with
  | vmIomap w va pa prot size =>
    obtain ⟨-, rfl⟩ := hask
    have hva : va % pageSize = 0 := hok.va_aligned
    exact ⟨pageUpperAlign_add_le (by norm_num) (by norm_num) hva hlow.1, hlow.2⟩
  | vmMmap w va order prot =>
    obtain ⟨-, p, -, rfl⟩ := hask
    exact ⟨hlow.1, hlow.2⟩
  | vmaAlloc | vmaDup | vmaFree | vmIounmap | vmUnmap => exact hask.elim

theorem Added.mappable (ha : x.Added x' v a area) (hask : x.Asks v area call) (hlow : call.Low)
    (hpa : call.LowPa) : area.Mappable := by
  refine ⟨ha.lowValid hask hlow, fun ht => ?_⟩
  have hok := ha.inv.areaOk a (by rw [ha.live]; exact Finset.mem_insert_self _ _)
  rw [ha.made] at hok
  cases call with
  | vmIomap w va pa prot size =>
    obtain ⟨-, rfl⟩ := hask
    have hpa' : pa % pageSize = 0 := hok.pa_aligned
    exact pageUpperAlign_add_le (by norm_num) (by norm_num) hpa' hpa
  | vmMmap w va order prot =>
    obtain ⟨-, p, -, rfl⟩ := hask
    exact absurd rfl ht
  | vmaAlloc | vmaDup | vmaFree | vmIounmap | vmUnmap => exact hask.elim

/-- A call on an address space of low areas keeps it tidy. -/
theorem Effect.low (he : x.Effect call x') (h : x.Inv) (hv : v ∈ x.live .vma)
    (hv' : v ∈ x'.live .vma) (hP : Hereditary P) (hlow : ∀ area, P area → area.Low)
    (hask : ∀ a area, x.Asks v area call → x.Added x' v a area → P area)
    (ht : x.Tidy v) (hall : ∀ a ∈ x.list v, P (x.areas a)) :
    x'.Tidy v ∧ ∀ a ∈ x'.list v, P (x'.areas a) := by
  rcases he.space_cases h hv hv' with hs | ⟨a, area, hasks, ha⟩ | ⟨a, ha, hr⟩
  · exact ⟨ht.sameSpace hs, all_sameSpace hs hall⟩
  · have harea := hask a area hasks ha
    have hok := ha.inv.areaOk a (by rw [ha.live]; exact Finset.mem_insert_self _ _)
    have hfit : x.Fits v area := by
      refine ⟨(hlow area harea).plain, fun b hb => ?_⟩
      have hagree := agrees_of_low hok (h.vm.list_ok hv hb)
        (hlow _ (by rw [ha.made]; exact hP.pgfm area _ harea)) (hlow _ (hall b hb))
      refine hagree.congr ?_ ?_ rfl rfl
      · rw [ha.made]
      · rw [ha.made]
    exact ⟨ht.added h.vm hv ha hfit, all_added hP h.vm hv ha harea hall⟩
  · exact ⟨ht.removed h.vm hv ha hr, all_removed h.vm hv hr hall⟩

/-- A copy of an address space of low areas is tidy. -/
theorem Opened.low {pg : ℕ} (ho : x.Opened s v pg) (hd : Dups v s (x.list u) true x') (h : x.Inv)
    (hu : u ∈ x.live .vma) (hP : Hereditary P) (hlow : ∀ area, P area → area.Low)
    (hall : ∀ a ∈ x.list u, P (x.areas a)) :
    x'.Tidy v ∧ ∀ a ∈ x'.list v, P (x'.areas a) := by
  refine ⟨ho.tidy hd h hu (fun b hb => (hlow _ (hall b hb)).plain) fun b hb c hc => ?_, ?_⟩
  · exact agrees_of_low (h.vm.list_ok hu hb) (h.vm.list_ok hu hc) (hlow _ (hall b hb))
      (hlow _ (hall c hc))
  · refine hd.all rfl hP ho.inv (ho.live_iff.2 (.inl rfl)) (fun b hb => ?_) (fun b hb => ?_)
      fun a ha => ?_
    · rw [ho.liveAreas]
      exact h.vm.mem_live hu hb
    · rw [ho.areas]
      exact hall b hb
    · rw [ho.list] at ha
      cases ha

/-! ### The lists and the trees -/

/-- The kernel has its two areas, and its page table maps them. -/
theorem Booted.tidy {text data : ℕ} (h : s.Booted text data) : s.Tidy s.kernVma where
  sorted := h.sorted
  agrees a ha b hb := agrees_of_low (h.vm.list_ok h.vm.kern_live ha)
    (h.vm.list_ok h.vm.kern_live hb) (h.low a ha) (h.low b hb)
  mapped w hw e he := by
    rw [h.entries w hw e he, h.list]
    constructor
    · rintro (hc | hc)
      · exact ⟨text, List.mem_cons_self, by rw [h.text]; exact hc⟩
      · exact ⟨data, List.mem_cons_of_mem _ List.mem_cons_self, by rw [h.data]; exact hc⟩
    · rintro ⟨a, ha, hc⟩
      rw [List.mem_cons, List.mem_singleton] at ha
      rcases ha with rfl | rfl
      · exact .inl (by rwa [← h.text])
      · exact .inr (by rwa [← h.data])

theorem Booted.lowValid {text data : ℕ} (h : s.Booted text data) :
    ∀ a ∈ s.list s.kernVma, (s.areas a).LowValid := by
  intro a ha
  refine ⟨h.low a ha, ?_⟩
  rw [h.list, List.mem_cons, List.mem_singleton] at ha
  rcases ha with rfl | rfl
  · rw [h.text]
    show (vmProtV ||| vmProtX ||| vmProtR) &&& vmProtV ≠ 0
    decide
  · rw [h.data]
    show (vmProtV ||| vmProtW ||| vmProtR) &&& vmProtV ≠ 0
    decide

end VmState

open VmState

/-- The runs in which all ranges that are asked for lie below `2 ^ 39` and are to be valid. -/
def lowRuns (A : VmEnv L) : Machine.System (VmState A) VmCall :=
  (vmRuns A).restrict fun _ call => call.Low

namespace VmState

variable {x x' s : VmState A} {v u a : ℕ} {call : VmCall}

/-- Every address space is tidy, and its areas are low and valid. -/
def LowSpaces (x : VmState A) : Prop :=
  ∀ v ∈ x.live .vma, x.Tidy v ∧ ∀ a ∈ x.list v, (x.areas a).LowValid

theorem Booted.lowSpaces {text data : ℕ} (h : s.Booted text data) : s.LowSpaces := by
  intro v hv
  rw [h.liveVma, Finset.mem_singleton] at hv
  rw [hv]
  exact ⟨h.tidy, h.lowValid⟩

theorem Effect.lowSpaces (he : x.Effect call x') (h : x.Inv) (hlow : call.Low)
    (hall : x.LowSpaces) : x'.LowSpaces := by
  intro v hv'
  by_cases hv : v ∈ x.live .vma
  · exact he.low h hv hv' hereditary_lowValid (fun _ h => h.low)
      (fun a area hask ha => ha.lowValid hask hlow) (hall v hv).1 (hall v hv).2
  · obtain ⟨u, hu, y, pg, ho, hd⟩ := he.born hv hv'
    exact ho.low hd h hu hereditary_lowValid (fun _ h => h.low) (hall u hu).2

theorem low_reachable (h : (lowRuns A).Reachable x) : x.Inv ∧ x.LowSpaces := by
  refine h.invariant (P := fun x => x.Inv ∧ x.LowSpaces) (fun s hs => ?_)
    fun s call s' _ hinv hstep => ?_
  · obtain ⟨x₀, pgtable, hboot, hinit⟩ := hs
    obtain ⟨text, data, hb⟩ := hboot.booted hinit
    exact ⟨hb.inv, hb.lowSpaces⟩
  · obtain ⟨hs, hall⟩ := hinv
    obtain ⟨hlow, hst⟩ := hstep
    have he := effect_of_step hs hst
    exact ⟨he.inv hs, he.lowSpaces hs hlow hall⟩

end VmState

/-- A new address space has the text of the kernel, and its areas end with the managed range. -/
theorem vmMachine_space : ∃ (s x : VmState vmMachine) (v c : ℕ), (vmRuns vmMachine).init s ∧
    s.vmaAlloc = .ok (v, x) ∧ v ≠ 0 ∧ (lowRuns vmMachine).Reachable x ∧ v ∈ x.live .vma ∧
    c ∈ x.list v ∧ ((x.areas c).va = 2 ^ 31 ∧ (x.areas c).size = 4096 ∧
      (x.areas c).pa = 2 ^ 31 ∧ (x.areas c).prot = 0xb) ∧
    (∀ b ∈ x.list v, (x.areas b).va + (x.areas b).size ≤ vmMachineLayout.vaEnd) ∧
    2 * 2 ^ 20 - 2 ≤ x.mem.freePages.ncard := by
  obtain ⟨s, x, text, data, v, hs, hb, hx, hv, -, hfree⟩ := vmMachine_alloc
  have hvalid : (VmCall.vmaDup s.kernVma).Valid s := ⟨trivial, .inr hb.vm.kern_live⟩
  have hdup := (vmaDup_copies hb.inv hvalid hx).1 hv
  have hstep : (lowRuns vmMachine).step s .vmaAlloc x :=
    ⟨trivial, ⟨trivial, .inl rfl⟩, (v : ℤ), by unfold VmState.exec; rw [hx]; rfl⟩
  have hlive : v ∈ x.live .vma := by
    rw [hdup.live]
    exact Finset.mem_insert_self _ _
  -- the copies of the two areas
  obtain ⟨l, hl, hcopies⟩ := hdup.areas
  rw [hb.list] at hcopies
  obtain ⟨c, l', hc, hrest, rfl⟩ := List.forall₂_cons_left_iff.1 hcopies
  obtain ⟨d, l', hd, hnil, rfl⟩ := List.forall₂_cons_left_iff.1 hrest
  rw [List.forall₂_nil_left_iff.1 hnil] at hl
  have hpa := (hc.shared (by rw [hb.text]; exact fun h => (nomatch h.1))).1
  have hva := hc.va
  have hsize := hc.size
  have hprot := hc.prot
  have hdva := hd.va
  have hdsize := hd.size
  rw [hb.text] at hpa hva hsize hprot
  rw [hb.data] at hdva hdsize
  refine ⟨s, x, v, c, hs, hx, hv, .step (.of_init hs) hstep, hlive,
    hl.mem_iff.1 List.mem_cons_self, ?_, fun b hbl => ?_, hfree⟩
  · rw [hpa, hva, hsize, hprot]
    decide
  · rw [← hl.mem_iff, List.mem_cons, List.mem_singleton] at hbl
    rcases hbl with rfl | rfl
    · rw [hva, hsize]
      decide
    · rw [hdva, hdsize]
      decide

/-- A page of memory behind them. -/
theorem vmMachine_space_mmap : ∃ (s x y : VmState vmMachine) (v p a : ℕ),
    (vmRuns vmMachine).init s ∧ s.vmaAlloc = .ok (v, x) ∧ v ≠ 0 ∧
    (lowRuns vmMachine).Reachable x ∧
    (∀ b ∈ x.list v, (x.areas b).va + (x.areas b).size ≤ vmMachineLayout.vaEnd) ∧
    x.vmMmap v vmMachineLayout.vaEnd 0 7 = .ok (0, y) ∧
    x.Added y v a (memoryArea vmMachineLayout vmMachineLayout.vaEnd p 0 7) ∧
    (lowRuns vmMachine).Reachable y ∧ v ∈ y.live .vma := by
  obtain ⟨s, x, v, c, hs, hx, hv0, hr, hv, -, -, hend, hfree⟩ := vmMachine_space
  obtain ⟨hinv, hall⟩ := low_reachable hr
  have hva : vmMachineLayout.vaEnd % pageSize = 0 := rfl
  have hbehind := fun p => (hall v hv).1.behind hinv.vm hv (vmMachine_page_low p) hva
    (show 2 ^ 0 * pageSize % pageSize = 0 by decide) (show 0 < 2 ^ 0 * pageSize by decide) hend
  obtain ⟨p, a, y, hy, ha, -⟩ := vmMmap_succeeds vmMachine_ample hinv hv hva (by decide) 7
    (fun p => (hbehind p).1) (fun p => (hbehind p).2) (by omega)
  have hstep : (lowRuns vmMachine).step x (.vmMmap v vmMachineLayout.vaEnd 0 7) y :=
    ⟨⟨show vmMachineLayout.vaEnd + 2 ^ 0 * pageSize ≤ 2 ^ 39 by decide, by decide⟩,
      ⟨show _ < _ by decide, .inr hv⟩, 0, hy⟩
  exact ⟨s, x, y, v, p, a, hs, hx, hv0, hr, hend, hy, ha, hr.step hstep,
    by rw [ha.frame.liveVma]; exact hv⟩

/-- In every run with low ranges the list of an address space is sorted, the tree has its order and
finds every area, and `vm_check` has nothing to object to. -/
theorem vma_lists (x : VmState A) (h : (lowRuns A).Reachable x) (v : ℕ) (hv : v ∈ x.live .vma) :
    ((x.list v).Pairwise fun a b => (x.areas a).va < (x.areas b).va ∧
      (x.areas a).va + (x.areas a).size ≤ (x.areas b).va) ∧
    (∀ a ∈ x.list v, 0 < (x.areas a).size ∧ (x.areas a).va % pageSize = 0 ∧
      (x.areas a).size % pageSize = 0 ∧ (x.areas a).pa % pageSize = 0) ∧
    (x.vmas v).aRoot.toList = x.list v ∧ (x.list v).Nodup ∧
    (∀ a ∈ x.list v, x.findArea v (x.areas a).va (x.areas a).size = some a) ∧
    x.vmCheck v = 0 := by
  obtain ⟨hinv, hall⟩ := low_reachable h
  obtain ⟨ht, hlow⟩ := hall v hv
  have hok : ∀ a ∈ x.list v, AreaOk x.mem (x.areas a) := fun a ha => hinv.vm.list_ok hv ha
  refine ⟨?_, fun a ha => ?_, (hinv.vm.listed v hv).toList, (hinv.vm.listed v hv).nodup,
    fun a ha => ?_, ?_⟩
  · -- areas are not empty, so ends in order make starts in order
    refine ht.sorted.pairwise.imp_of_mem fun {a b} ha _ hab => ⟨?_, hab⟩
    exact lt_of_lt_of_le (Nat.lt_add_of_pos_right (hok a ha).size_pos) hab
  · exact ⟨(hok a ha).size_pos, (hok a ha).va_aligned, (hok a ha).size_aligned,
      (hok a ha).pa_aligned⟩
  · exact ht.sorted.findArea_self (hinv.vm.listed v hv) ha (hok a ha).size_pos
  · exact vmCheck_eq_zero hinv.vm hv ht.sorted fun a ha => (hlow a ha).valid

/-- The lists after `vma_alloc` and `vm_mmap`. -/
theorem vma_lists_page : ∃ (s x y : VmState vmMachine) (v a : ℕ), (vmRuns vmMachine).init s ∧
    s.vmaAlloc = .ok (v, x) ∧ x.vmMmap v vmMachineLayout.vaEnd 0 7 = .ok (0, y) ∧
    y.list v = x.list v ++ [a] ∧ y.findArea v vmMachineLayout.vaEnd 4096 = some a ∧
    y.vmCheck v = 0 := by
  obtain ⟨s, x, y, v, p, a, hs, hx, -, hrx, hend, hy, ha, hr, hv⟩ := vmMachine_space_mmap
  have hvx : v ∈ x.live .vma := ha.frame.liveVma ▸ hv
  obtain ⟨hsorted, -, -, hnodup, hfind, hcheck⟩ := vma_lists y hr v hv
  have hal : a ∈ y.list v := ha.mem_list.2 (.inl rfl)
  have hself := hfind a hal
  rw [ha.made] at hself
  refine ⟨s, x, y, v, a, hs, hx, hy, ?_, hself, hcheck⟩
  -- the areas behind `a` would begin where no area ends
  obtain ⟨l, r, hl, hl', -⟩ := ha.split
  have hnil : r = [] := by
    refine List.eq_nil_iff_forall_not_mem.2 fun b hb => ?_
    have hbx : b ∈ x.list v := by
      rw [hl]
      exact List.mem_append_right l hb
    rw [hl', List.pairwise_append, List.pairwise_cons] at hsorted
    have hab := (hsorted.2.1.1 b hb).2
    rw [ha.areas_live ((low_reachable hrx).1.vm.mem_live hvx hbx), ha.made] at hab
    have hle : vmMachineLayout.vaEnd + 2 ^ 0 * pageSize ≤ (x.areas b).va := hab
    have hbe := hend b hbx
    simp only [pageSize, pageOffset] at hle
    omega
  rw [hl', hl, hnil, List.append_nil]

/-! ### The translation -/

/-- The runs that go on with address space `v`: it is not freed, and the ranges that are asked for
it are low; the calls on other address spaces are arbitrary. -/
def spaceRuns (A : VmEnv L) (v : ℕ) : Machine.System (VmState A) VmCall :=
  (vmRuns A).restrict fun _ call => call ≠ .vmaFree v ∧ (call.vma = v → call.Low ∧ call.LowPa)

namespace VmState

variable {x x' s : VmState A} {v u a : ℕ} {call : VmCall}

theorem Asks.vma_eq (h : x.Asks v area call) : call.vma = v := by
  cases call with
  | vmIomap => exact h.1.symm
  | vmMmap => exact h.1.symm
  | vmaAlloc | vmaDup | vmaFree | vmIounmap | vmUnmap => exact h.elim

theorem Effect.live (he : x.Effect call x') (hv : v ∈ x.live .vma) (hne : call ≠ .vmaFree v) :
    v ∈ x'.live .vma := by
  cases he with
  | same => exact hv
  | refused hu hr =>
    rw [hr.frame.liveVma]
    exact hv
  | added hu hask ha =>
    rw [ha.frame.liveVma]
    exact hv
  | removed hu ha ht hr =>
    rw [hr.frame.liveVma]
    exact hv
  | released hu hk hr hcall =>
    rw [hr.live, Finset.mem_erase]
    exact ⟨fun hvu => hne (hvu ▸ hcall), hv⟩
  | undone hu ho hd hr =>
    have hg := hd.grown ho.inv (ho.live_iff.2 (.inl rfl))
    rw [hr.live, Finset.mem_erase, hg.frame.liveVma, ho.live_iff]
    exact ⟨fun hvn => ho.fresh (hvn ▸ hv), .inr hv⟩
  | done hu ho hd =>
    have hg := hd.grown ho.inv (ho.live_iff.2 (.inl rfl))
    rw [hg.frame.liveVma, ho.live_iff]
    exact .inr hv

/-- The physical addresses of a mapped area. -/
theorem pa_le_of_mappable (hok : AreaOk x.mem area) (h : area.Mappable) :
    area.pa + area.size ≤ 2 ^ 56 := by
  by_cases ht : area.vmarTyp = .memory
  · obtain ⟨p, o, -, hb, hpa, hsize⟩ := hok.backed ht
    have hle := (A.wellFormed x.mem.buddy).block_le p o hb.block
    have hend := L.paEnd_le
    rw [hpa, hsize, VmLayout.pg2pa_of_valid (A.block_lt hb.block), Nat.add_assoc, ← Nat.add_mul]
    exact (Nat.add_le_add_left (Nat.mul_le_mul_right _ hle) _).trans hend
  · exact h.pa_le ht

/-- What a tidy address space of low areas translates. -/
theorem Tidy.translate_iff (ht : x.Tidy v) (hinv : x.VmInv) (hv : v ∈ x.live .vma)
    (hall : ∀ a ∈ x.list v, (x.areas a).Mappable) {va : ℕ} (hva : va < 2 ^ 39) (frame prot : ℕ) :
    x.translate v va = some (frame, prot) ↔ ∃ a ∈ x.list v, (x.areas a).va ≤ va ∧
      va < (x.areas a).va + (x.areas a).size ∧
      frame = (x.areas a).pa + (va / pageSize * pageSize - (x.areas a).va) ∧
      prot = (x.areas a).prot &&& 0x3ff := by
  have hw : position 2 va < tableSpan := position_lt 2 va
  have hpos : position 2 va = va / pageSize := by
    unfold position
    rw [show (512 : ℕ) ^ (2 + 1) = 2 ^ 27 by norm_num]
    refine Nat.mod_eq_of_lt ?_
    simp only [pageSize, pageOffset]
    omega
  -- an area that covers the position has the address, and its entry the frame
  have hcover : ∀ a ∈ x.list v, ((x.areas a).Covers (position 2 va) ↔
      (x.areas a).va ≤ va ∧ va < (x.areas a).va + (x.areas a).size) := by
    intro a ha
    have hok := hinv.list_ok hv ha
    have h1 := hok.va_aligned
    have h2 := hok.size_aligned
    rw [(hall a ha).lowValid.low.covers_iff h1 h2 hok.size_pos, hpos]
    simp only [pageSize, pageOffset] at *
    omega
  have hframe : ∀ a ∈ x.list v, (x.areas a).Covers (position 2 va) →
      pteFrame ((x.areas a).pte (position 2 va)) = ((x.areas a).pa +
        (va / pageSize * pageSize - (x.areas a).va), (x.areas a).prot &&& 0x3ff) := by
    intro a ha hc
    have hok := hinv.list_ok hv ha
    have h1 := hok.va_aligned
    have hle := pa_le_of_mappable hok (hall a ha)
    have hin := (hcover a ha).1 hc
    rw [pteFrame_pte hok.pa_aligned, (hall a ha).lowValid.low.position_eq h1 hok.size_pos, hpos]
    refine congrArg (Prod.mk · _) ?_
    simp only [pageSize, pageOffset] at *
    omega
  rw [translate_eq_some]
  constructor
  · rintro ⟨e, hent, he, hfr⟩
    obtain ⟨a, ha, hc, rfl⟩ := (ht.mapped _ hw e he).1 hent
    rw [hframe a ha hc, Prod.mk.injEq] at hfr
    obtain ⟨hlo, hhi⟩ := (hcover a ha).1 hc
    exact ⟨a, ha, hlo, hhi, hfr.1.symm, hfr.2.symm⟩
  · rintro ⟨a, ha, hlo, hhi, rfl, rfl⟩
    have hc := (hcover a ha).2 ⟨hlo, hhi⟩
    have hvalid : PteValid ((x.areas a).pte (position 2 va)) := by
      have hprot := (hall a ha).lowValid.valid
      have hodd : (x.areas a).prot % 2 = 1 := by
        rwa [vmProtV, and_two_pow_ne_zero, pow_zero, Nat.div_one] at hprot
      exact pteValid_pa2PTE.2 hodd
    exact ⟨_, (ht.mapped _ hw _ hvalid).2 ⟨a, ha, hc, rfl⟩, hvalid, hframe a ha hc⟩

/-- What a run that goes on with an address space keeps. -/
theorem space_run {as : List VmCall} (hr : (spaceRuns A v).Run x as x') (h : x.Inv)
    (hv : v ∈ x.live .vma) (ht : x.Tidy v) (hall : ∀ a ∈ x.list v, (x.areas a).Mappable) :
    x'.Inv ∧ v ∈ x'.live .vma ∧ x'.Tidy v ∧ ∀ a ∈ x'.list v, (x'.areas a).Mappable := by
  induction hr with
  | nil => exact ⟨h, hv, ht, hall⟩
  | @snoc y z as call _ hstep ih =>
    obtain ⟨hy, hvy, hty, hally⟩ := ih
    obtain ⟨⟨hne, hlow⟩, hst⟩ := hstep
    have he := effect_of_step hy hst
    have hvz := he.live hvy hne
    refine ⟨he.inv hy, hvz, he.low hy hvy hvz hereditary_mappable (fun _ h => h.lowValid.low)
      (fun a area hask ha => ?_) hty hally⟩
    obtain ⟨h1, h2⟩ := hlow hask.vma_eq
    exact ha.mappable hask h1 h2

end VmState

namespace VmState

variable {x x' : VmState A} {v u a : ℕ}

/-- An address space that `vma_dup` has made is tidy if its areas are low. -/
theorem tidy_vmaDup (h : x.Inv) (hu : u ∈ x.live .vma) (hdup : x.vmaDup u = .ok (v, x'))
    (hv : v ≠ 0) (hall : ∀ a ∈ x'.list v, (x'.areas a).LowValid) :
    x'.Inv ∧ v ∈ x'.live .vma ∧ x'.Tidy v := by
  obtain ⟨s, pg, ho, hds⟩ := vmaDup_opened h hu hdup hv
  have hd := (vmaDup_copies h ⟨trivial, .inr hu⟩ hdup).1 hv
  have he : x.Effect (.vmaDup u) x' := .done hu ho hds
  refine ⟨he.inv h, by rw [hd.live]; exact Finset.mem_insert_self _ _, ?_⟩
  -- an area has the range and the permissions of its copy
  obtain ⟨l, hl, hcopies⟩ := hd.areas
  refine (ho.low hds h hu hereditary_lowValid (fun _ h => h.low) fun b hb => ?_).1
  obtain ⟨c, hc, hbc⟩ := exists_of_forall₂ hcopies.flip hb
  have hlow := hall c (hl.mem_iff.1 hc)
  refine ⟨?_, by rw [← hbc.prot]; exact hlow.valid⟩
  have hle := hlow.low
  unfold VmaArea.Low at *
  rwa [← hbc.va, ← hbc.size]

/-- The areas of the kernel have physical addresses that an entry can hold. -/
theorem Booted.mappable {text data : ℕ} (h : x.Booted text data) :
    ∀ a ∈ x.list x.kernVma, (x.areas a).Mappable := by
  have h1 := L.paEnd_le
  have h2 := L.seperate_lt
  intro a ha
  refine ⟨h.lowValid a ha, fun _ => ?_⟩
  rw [h.list, List.mem_cons, List.mem_singleton] at ha
  rcases ha with rfl | rfl
  · rw [h.text]
    have hle : L.seperate * pageSize ≤ L.pageNums * pageSize := Nat.mul_le_mul_right _ h2.le
    exact (Nat.add_le_add_left hle _).trans h1
  · rw [h.data]
    show L.paStart + L.seperate * pageSize + (L.pageNums - L.seperate) * pageSize ≤ 2 ^ 56
    rwa [Nat.add_assoc, ← Nat.add_mul, Nat.add_sub_of_le h2.le]

end VmState

/-- The areas of an address space that `vma_alloc` makes right after boot. -/
theorem vmaAlloc_mappable {x₀ : VmState A} (h₀ : (vmRuns A).init x₀) {v : ℕ} {x : VmState A}
    (hx : x₀.vmaAlloc = .ok (v, x)) (hv : v ≠ 0) : ∀ a ∈ x.list v, (x.areas a).Mappable := by
  obtain ⟨y, pgtable, hboot, hinit⟩ := h₀
  obtain ⟨text, data, hb⟩ := hboot.booted hinit
  have hkern := hb.vm.kern_live
  obtain ⟨z, pg, ho, hd⟩ := vmaDup_opened hb.inv hkern hx hv
  exact (ho.low hd hb.inv hkern hereditary_mappable (fun _ h => h.lowValid.low) hb.mappable).2

/-- The page table of an address space that `vma_alloc` or `vma_dup` has made translates the
addresses below `2 ^ 39` as the areas of the address space say. -/
theorem vm_translation (x₀ : VmState A) (h₀ : (vmRuns A).Reachable x₀) (v : ℕ) (x₁ : VmState A)
    (hnew : x₀.vmaAlloc = .ok (v, x₁) ∨ ∃ u ∈ x₀.live .vma, x₀.vmaDup u = .ok (v, x₁))
    (hv : v ≠ 0) (hall : ∀ a ∈ x₁.list v, (x₁.areas a).Mappable) (as : List VmCall)
    (x : VmState A) (hrun : (spaceRuns A v).Run x₁ as x) (va : ℕ) (hva : va < 2 ^ 39)
    (frame prot : ℕ) :
    x.translate v va = some (frame, prot) ↔ ∃ a ∈ x.list v, (x.areas a).va ≤ va ∧
      va < (x.areas a).va + (x.areas a).size ∧
      frame = (x.areas a).pa + (va / pageSize * pageSize - (x.areas a).va) ∧
      prot = (x.areas a).prot &&& 0x3ff := by
  have hinv₀ := inv_reachable h₀
  -- `vma_alloc` is a copy of the address space of the kernel
  have hdup : ∃ u ∈ x₀.live .vma, x₀.vmaDup u = .ok (v, x₁) := by
    rcases hnew with halloc | hdup
    · exact ⟨x₀.kernVma, hinv₀.vm.kern_live, halloc⟩
    · exact hdup
  obtain ⟨u, hu, hdup⟩ := hdup
  obtain ⟨hinv₁, hv₁, ht₁⟩ := tidy_vmaDup hinv₀ hu hdup hv fun a ha => (hall a ha).lowValid
  obtain ⟨hinv, hvx, ht, hmap⟩ := space_run hrun hinv₁ hv₁ ht₁ hall
  exact ht.translate_iff hinv.vm hvx hmap hva frame prot

/-- A page that `vm_mmap` maps in a new address space is translated to the page it took. -/
theorem vm_translation_page : ∃ (s x y : VmState vmMachine) (v p : ℕ),
    (vmRuns vmMachine).init s ∧ s.vmaAlloc = .ok (v, x) ∧ v ≠ 0 ∧
    (spaceRuns vmMachine v).Run x [.vmMmap v vmMachineLayout.vaEnd 0 7] y ∧
    y.translate v (vmMachineLayout.vaEnd + 1) = some (vmMachineLayout.pg2pa p, 7) := by
  obtain ⟨s, x, y, v, p, a, hs, hx, hv0, -, -, hy, ha, -, hv⟩ := vmMachine_space_mmap
  have hlow : (VmCall.vmMmap v vmMachineLayout.vaEnd 0 7).Low :=
    ⟨show vmMachineLayout.vaEnd + 2 ^ 0 * pageSize ≤ 2 ^ 39 by decide, by decide⟩
  have hrun : (spaceRuns vmMachine v).Run x [.vmMmap v vmMachineLayout.vaEnd 0 7] y :=
    .single ⟨⟨nofun, fun _ => ⟨hlow, trivial⟩⟩,
      ⟨show _ < _ by decide, .inr (ha.frame.liveVma ▸ hv)⟩, 0, hy⟩
  refine ⟨s, x, y, v, p, hs, hx, hv0, hrun, (vm_translation s (.of_init hs) v x (.inl hx) hv0
    (vmaAlloc_mappable hs hx hv0) _ y hrun (vmMachineLayout.vaEnd + 1) (by decide) _ _).2
    ⟨a, ha.mem_list.2 (.inl rfl), ?_⟩⟩
  rw [ha.made]
  show vmMachineLayout.vaEnd ≤ vmMachineLayout.vaEnd + 1 ∧
    vmMachineLayout.vaEnd + 1 < vmMachineLayout.vaEnd + 2 ^ 0 * pageSize ∧ _ = _ ∧ 7 = 7 &&& 0x3ff
  exact ⟨by decide, by decide, rfl, by decide⟩

end AcoOs
