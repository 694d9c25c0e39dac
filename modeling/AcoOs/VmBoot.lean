/-
The two areas of the kernel, and what `vm_module_init` makes of them.

The boot code maps the managed range before there are address spaces; `vm_module_init`
registers that mapping as two areas of `kern_vma` and enters nothing.  `Boot` is what it
finds, `Booted` what it leaves.
-/
import AcoOs.VmDup

namespace AcoOs

open Memory

variable {L : VmLayout} {A : VmEnv L}

/-! ### The areas of the kernel -/

theorem vaStart_position (L : VmLayout) {i : ℕ} (hi : i < L.pageNums) :
    position 2 (L.vaStart + i * pageSize) = L.vaStart / pageSize + i := by
  have h1 := L.vaEnd_le
  have h2 := L.vaStart_aligned
  unfold position
  rw [show 512 ^ (2 + 1) = 2 ^ 27 by norm_num]
  simp only [pageSize, pageOffset] at *
  omega

theorem kernelPos_lt {w : ℕ} (h : kernelPos L w) : w < tableSpan := by
  obtain ⟨i, hi, rfl⟩ := h
  have h1 := L.vaEnd_le
  rw [show tableSpan = 2 ^ 27 by norm_num [tableSpan]]
  simp only [pageSize, pageOffset] at *
  omega

theorem kernelText_covers {w : ℕ} : (kernelText L).Covers w ↔
    L.vaStart / pageSize ≤ w ∧ w < L.vaStart / pageSize + L.seperate := by
  have hpos := vaStart_position L (i := 0) (by have := L.seperate_lt; omega)
  have h1 := L.seperate_pos
  have h2 := L.seperate_lt
  have h3 := L.vaEnd_le
  rw [Nat.zero_mul, Nat.add_zero, Nat.add_zero] at hpos
  have hdiv : (kernelText L).size / pageSize = L.seperate := Nat.mul_div_cancel _ (by decide)
  have hva : position 2 (kernelText L).va = L.vaStart / pageSize := hpos
  rw [VmaArea.covers_iff, hva, hdiv]
  · rw [hva, hdiv, show tableSpan = 2 ^ 27 by norm_num [tableSpan]]
    simp only [pageSize, pageOffset] at *
    omega
  · exact Nat.mul_mod_left _ _
  · exact Nat.mul_pos h1 (by decide)

theorem kernelData_covers {w : ℕ} : (kernelData L).Covers w ↔
    L.vaStart / pageSize + L.seperate ≤ w ∧ w < L.vaStart / pageSize + L.pageNums := by
  have h1 := L.seperate_pos
  have h2 := L.seperate_lt
  have h3 := L.vaEnd_le
  have hva : position 2 (kernelData L).va = L.vaStart / pageSize + L.seperate :=
    vaStart_position L h2
  have hdiv : (kernelData L).size / pageSize = L.pageNums - L.seperate :=
    Nat.mul_div_cancel _ (by decide)
  rw [VmaArea.covers_iff, hva, hdiv]
  · omega
  · rw [hva, hdiv, show tableSpan = 2 ^ 27 by norm_num [tableSpan]]
    simp only [pageSize, pageOffset] at *
    omega
  · exact Nat.mul_mod_left _ _
  · exact Nat.mul_pos (by omega) (by decide)

theorem kernelPos_iff {w : ℕ} :
    kernelPos L w ↔ (kernelText L).Covers w ∨ (kernelData L).Covers w := by
  have h2 := L.seperate_lt
  rw [kernelText_covers, kernelData_covers]
  constructor
  · rintro ⟨i, hi, rfl⟩
    omega
  · intro h
    exact ⟨w - L.vaStart / pageSize, by omega, by omega⟩

theorem kernelText_valid (L : VmLayout) (w : ℕ) : PteValid ((kernelText L).pte w) :=
  pteValid_pa2PTE.2 (by show (vmProtV ||| vmProtX ||| vmProtR) % 2 = 1; decide)

theorem kernelData_valid (L : VmLayout) (w : ℕ) : PteValid ((kernelData L).pte w) :=
  pteValid_pa2PTE.2 (by show (vmProtV ||| vmProtW ||| vmProtR) % 2 = 1; decide)

namespace VmState

variable {x x' s : VmState A} {v w a : ℕ}

theorem kernelText_request (x : VmState A) : x.Request (kernelText L) := by
  have h1 := L.seperate_pos
  have h2 := L.seperate_lt
  have h3 := L.vaEnd_le
  have h4 := L.paEnd_le
  have h5 := L.vaStart_aligned
  have h6 := L.paStart_aligned
  refine ⟨h5, h6, Nat.mul_mod_left _ _, Nat.mul_pos h1 (by decide), ?_, ?_, ?_, rfl,
    fun h => (nomatch h), fun _ => .inl rfl⟩
  · show L.vaStart < _
    omega
  · show L.paStart < _
    omega
  · show L.seperate * pageSize < _
    simp only [pageSize, pageOffset] at *
    omega

theorem kernelData_request (x : VmState A) : x.Request (kernelData L) := by
  have h1 := L.seperate_pos
  have h2 := L.seperate_lt
  have h3 := L.vaEnd_le
  have h4 := L.paEnd_le
  have h5 := L.vaStart_aligned
  have h6 := L.paStart_aligned
  refine ⟨?_, ?_, Nat.mul_mod_left _ _, Nat.mul_pos (by omega) (by decide), ?_, ?_, ?_, rfl,
    fun h => (nomatch h), fun _ => .inr rfl⟩
  · show (L.vaStart + L.seperate * pageSize) % pageSize = 0
    rw [Nat.add_mul_mod_self_right]
    exact h5
  · show (L.paStart + L.seperate * pageSize) % pageSize = 0
    rw [Nat.add_mul_mod_self_right]
    exact h6
  · show L.vaStart + L.seperate * pageSize < _
    simp only [pageSize, pageOffset] at *
    omega
  · show L.paStart + L.seperate * pageSize < _
    simp only [pageSize, pageOffset] at *
    omega
  · show (L.pageNums - L.seperate) * pageSize < _
    simp only [pageSize, pageOffset] at *
    omega

/-- Both areas of the kernel are in the list, and their entries in the page table. -/
structure KernelMapped (x : VmState A) (v : ℕ) : Prop where
  text : ∃ a ∈ x.list v, x.areas a = kernelText L
  data : ∃ a ∈ x.list v, x.areas a = kernelData L
  textEntry : ∀ w, (kernelText L).Covers w → x.entry v w = some ((kernelText L).pte w)
  dataEntry : ∀ w, (kernelData L).Covers w → x.entry v w = some ((kernelData L).pte w)

namespace KernelMapped

/-- The positions of the kernel have valid entries. -/
theorem validAt (h : x.KernelMapped v) (hw : kernelPos L w) :
    ∃ e, x.entry v w = some e ∧ PteValid e := by
  rcases kernelPos_iff.1 hw with hc | hc
  · exact ⟨_, h.textEntry w hc, kernelText_valid L w⟩
  · exact ⟨_, h.dataEntry w hc, kernelData_valid L w⟩

/-- What keeps the areas of the list and the valid entries of the kernel keeps its mapping. -/
theorem mono (h : x.KernelMapped v) (hareas : ∀ a ∈ x.list v, (x.areas a).vmarTyp = .kernel →
      a ∈ x'.list v ∧ x'.areas a = x.areas a)
    (hentry : ∀ w, kernelPos L w → ∀ e, PteValid e → x.entry v w = some e →
      x'.entry v w = some e) : x'.KernelMapped v := by
  obtain ⟨a, ha, hat⟩ := h.text
  obtain ⟨b, hb, hbt⟩ := h.data
  obtain ⟨ha', haa⟩ := hareas a ha (by rw [hat]; rfl)
  obtain ⟨hb', hbb⟩ := hareas b hb (by rw [hbt]; rfl)
  refine ⟨⟨a, ha', haa.trans hat⟩, ⟨b, hb', hbb.trans hbt⟩, fun w hw => ?_, fun w hw => ?_⟩
  · exact hentry w (kernelPos_iff.2 (.inl hw)) _ (kernelText_valid L w) (h.textEntry w hw)
  · exact hentry w (kernelPos_iff.2 (.inr hw)) _ (kernelData_valid L w) (h.dataEntry w hw)

theorem sameSpace (h : x.KernelMapped v) (hs : x.SameSpace x' v) : x'.KernelMapped v :=
  h.mono (fun a ha _ => ⟨by rw [hs.list]; exact ha, hs.areas a ha⟩)
    fun w hw e he hent => (hs.entries w (kernelPos_lt hw) e he).2 hent

theorem added {area : VmaArea} (h : x.KernelMapped v) (hinv : x.VmInv) (hv : v ∈ x.live .vma)
    (ha : x.Added x' v a area) : x'.KernelMapped v :=
  h.mono (fun _ hb _ => ⟨ha.mem_list.2 (.inr hb), ha.areas_live (hinv.mem_live hv hb)⟩)
    fun _ hw _ he hent => (ha.entry_valid (kernelPos_lt hw) he).2 (.inl hent)

theorem removed (h : x.KernelMapped v) (hinv : x.VmInv) (hv : v ∈ x.live .vma)
    (ha : a ∈ x.list v) (ht : (x.areas a).vmarTyp ≠ .kernel) (hr : x.Removed x' v a) :
    x'.KernelMapped v := by
  refine h.mono (fun b hb htb => ?_) fun w hw e he hent => ?_
  · have hba : b ≠ a := by
      rintro rfl
      exact ht htb
    rw [hr.list, (hinv.listed v hv).nodup.mem_erase_iff]
    exact ⟨⟨hba, hb⟩, hr.areas b hba⟩
  · rcases hr.erased w (kernelPos_lt hw) with h1 | ⟨-, h2⟩
    · rw [h1, hent]
    · rcases h2 with h2 | h2
      · rw [hent] at h2
        rcases h2 with h2 | h2
        · cases h2
        · cases h2
          exact absurd he not_pteValid_zero
      · exact absurd hw ((hinv.list_ok hv ha).outside ht w h2)

/-- What is mapped into an address space of the kernel avoids it. -/
theorem outside {area : VmaArea} (h : x.KernelMapped v) (hm : x.Mapped x' v a area)
    (hc : area.Covers w) : ¬ kernelPos L w := by
  intro hw
  exact (hm.wrote w (kernelPos_lt hw) hc).1 (h.validAt hw)

end KernelMapped

/-! ### `vm_module_init` -/

/-- What `vm_module_init` finds when it has allocated `kern_vma`: nothing but this one
object, no block that backs areas, and in page `pgtable` the page table of the boot code,
which maps the managed range and nothing else. -/
structure Boot (x : VmState A) (pgtable : ℕ) : Prop where
  liveVma : x.live .vma = {x.kernVma}
  liveArea : x.live .vmaArea = ∅
  kernVma : x.kernVma ≠ 0
  vmas : ∀ v, x.vmas v = .zero
  types : ∀ p, (x.mem.pages p).pgtype ≠ .vmaArea
  table : TableInv (kernelPos L) x.mem 2 pgtable 0
  entries : ∀ w < tableSpan, ∀ e, PteValid e → (x.mem.leaf 2 pgtable w = some e ↔
    (kernelText L).Covers w ∧ (kernelText L).pte w = e ∨
    (kernelData L).Covers w ∧ (kernelData L).pte w = e)

/-- What `vm_module_init` leaves: one address space with the two areas of the kernel. -/
structure Booted (s : VmState A) (text data : ℕ) : Prop where
  vm : s.VmInv
  referenced : s.Referenced
  liveVma : s.live .vma = {s.kernVma}
  list : s.list s.kernVma = [text, data]
  text : s.areas text = kernelText L
  data : s.areas data = kernelData L
  entries : ∀ w < tableSpan, ∀ e, PteValid e → (s.entry s.kernVma w = some e ↔
    (kernelText L).Covers w ∧ (kernelText L).pte w = e ∨
    (kernelData L).Covers w ∧ (kernelData L).pte w = e)

/-- The state with `kern_vma` set up. -/
def withKern (x : VmState A) (pgtable : ℕ) : VmState A :=
  x.setVma x.kernVma ⟨some pgtable, x.kernVma, .nil, []⟩

/-- There is no object or no place for an area. -/
def Unplaced (x : VmState A) (v : ℕ) (area : VmaArea) : Prop :=
  (x.objAlloc .vmaArea).1 = none ∨ x.inTheWay v area ≠ none

/-- `__vm_mmap` of an area that is in the page table already. -/
theorem vmMmapInternal_registered {area : VmaArea} (h : x.VmInv) (hv : v ∈ x.live .vma)
    (hr : x.Request area) (ht : area.vmarTyp ≠ .memory) :
    (∃ ret x', ret < 0 ∧ x.vmMmapInternal v area.va area.pa area.prot area.size area.vmarTyp false =
      .ok (ret, x') ∧ x.Unplaced v area) ∨
    ∃ a x', x.vmMmapInternal v area.va area.pa area.prot area.size area.vmarTyp false =
      .ok (0, x') ∧ x.Linked x' v a area ∧ (∀ w, x'.entry v w = x.entry v w) ∧
      x'.mem = (x.objAlloc .vmaArea).2.mem := by
  unfold vmMmapInternal
  rw [if_pos ⟨h.ne_zero hv, hr.size_pos, hr.va_aligned, hr.pa_aligned, hr.size_aligned⟩]
  rcases ho : x.objAlloc .vmaArea with ⟨_ | a, y⟩
  · exact .inl ⟨-enobufs, y, by decide, rfl, .inl (by rw [ho])⟩
  have hrec : (⟨area.vmarTyp, area.va, area.size, area.pa, none, area.prot⟩ : VmaArea) = area := by
    rw [← hr.pgfm]
  dsimp only
  rw [hrec]
  rcases hung_cases h hv ho area false with ⟨hway, x', hx', -⟩ | ⟨-, z, l, r, tree, hh, heq⟩
  · exact .inl ⟨_, x', by decide, hx', .inr hway⟩
  · rw [heq, if_neg Bool.false_ne_true]
    refine .inr ⟨a, z, rfl, hh.linked hr hv ht (.refl (hh.kept.spaces.table v hv)), fun w => ?_,
      by rw [hh.mem, ho]⟩
    unfold entry
    rw [hh.root_eq, hh.leaf]

/-- Both areas of the kernel are in the tree and the list, as the objects `a` and `b`. -/
structure Registered (x : VmState A) (pgtable : ℕ) (x₁ x₂ : VmState A) (a b : ℕ) : Prop where
  text : (x.withKern pgtable).Linked x₁ x.kernVma a (kernelText L)
  textEntry : ∀ w, x₁.entry x.kernVma w = (x.withKern pgtable).entry x.kernVma w
  textMem : x₁.mem = ((x.withKern pgtable).objAlloc .vmaArea).2.mem
  data : x₁.Linked x₂ x.kernVma b (kernelData L)
  dataEntry : ∀ w, x₂.entry x.kernVma w = x₁.entry x.kernVma w
  dataMem : x₂.mem = (x₁.objAlloc .vmaArea).2.mem

namespace Boot

variable {pgtable : ℕ}

theorem withKern_vmas (x : VmState A) (pgtable : ℕ) :
    (x.withKern pgtable).vmas x.kernVma = ⟨some pgtable, x.kernVma, .nil, []⟩ :=
  Function.update_self (β := fun _ => Vma) _ _ _

theorem inv (h : x.Boot pgtable) : (x.withKern pgtable).VmInv := by
  have hv := withKern_vmas x pgtable
  have hlive : (x.withKern pgtable).live .vma = {x.kernVma} := h.liveVma
  have hmem : ∀ v ∈ (x.withKern pgtable).live .vma, v = x.kernVma := by
    intro v hv
    rwa [hlive, Finset.mem_singleton] at hv
  have hlist : (x.withKern pgtable).list x.kernVma = [] := by
    unfold list
    rw [hv]
  have hroot : (x.withKern pgtable).root x.kernVma = pgtable := by
    unfold root
    rw [hv]
    rfl
  have hpin : (x.withKern pgtable).pin x.kernVma = kernelPos L := if_pos rfl
  have hnone : ∀ p o, ¬ x.mem.BacksAreas p o := fun p o hb => h.types p hb.type
  have hkern : ∀ w, kernelPos L w → x.mem.ValidAt 2 pgtable w := by
    intro w hw
    rcases kernelPos_iff.1 hw with hc | hc
    · exact ⟨_, (h.entries w (kernelPos_lt hw) _ (kernelText_valid L w)).2 (.inl ⟨hc, rfl⟩),
        kernelText_valid L w⟩
    · exact ⟨_, (h.entries w (kernelPos_lt hw) _ (kernelData_valid L w)).2 (.inr ⟨hc, rfl⟩),
        kernelData_valid L w⟩
  refine ⟨?_, ?_, fun v hv' => ?_, fun v hv' => ?_, fun v hv' => ?_, fun v hv' => ?_,
    ⟨fun v hv' => ?_, fun v hv' w hw => ?_, fun v hv' w hw hne => ?_, fun p hp => ?_,
      fun v hv' p o hp => ?_⟩, fun v hv' hne => ?_, fun a => ?_, fun v hv' w hw a hav => ?_,
    fun a ha => ?_, fun p hp => ?_⟩
  · rw [hlive]
    exact Finset.mem_singleton_self _
  · rw [hlive, Finset.mem_singleton]
    exact fun h0 => h.kernVma h0.symm
  · rw [hmem v hv', hv]
    rfl
  · rw [hmem v hv', hv, hroot]
  · rw [hlive, Finset.mem_singleton] at hv'
    exact (Function.update_of_ne (β := fun _ => Vma) hv' _ _).trans (h.vmas v)
  · rw [hmem v hv']
    exact ⟨by rw [hlist, hv]; rfl, by rw [hlist]; exact List.nodup_nil⟩
  · rw [hmem v hv', hroot, hpin]
    exact h.table
  · rw [hmem v hv', hpin] at hw
    rw [hmem v hv', hroot]
    exact ⟨kernelPos_lt hw, hkern w hw⟩
  · exact absurd ((hmem v hv').trans (hmem w hw).symm) hne
  · exact absurd hp (h.types p)
  · exact absurd hp (hnone p o)
  · exact absurd (hmem v hv') hne
  · rw [show (x.withKern pgtable).live .vmaArea = ∅ from h.liveArea]
    constructor
    · intro ha
      cases ha
    · rintro ⟨v, hv', ha⟩
      rw [hmem v hv', hlist] at ha
      cases ha
  · rw [hmem v hv', hlist] at hav
    cases hav
  · rw [show (x.withKern pgtable).live .vmaArea = ∅ from h.liveArea] at ha
    cases ha
  · exact absurd hp (h.types p)

/-- The steps of `vm_module_init`. -/
theorem init_cases (h : x.Boot pgtable) :
    ((∀ s, x.vmModuleInit pgtable ≠ .ok (0, s)) ∧
      (x.withKern pgtable).Unplaced x.kernVma (kernelText L)) ∨
    (∃ x₁ a, (x.withKern pgtable).Linked x₁ x.kernVma a (kernelText L) ∧
      x₁.mem = ((x.withKern pgtable).objAlloc .vmaArea).2.mem ∧
      (∀ s, x.vmModuleInit pgtable ≠ .ok (0, s)) ∧ x₁.Unplaced x.kernVma (kernelData L)) ∨
    ∃ x₁ x₂ a b, x.Registered pgtable x₁ x₂ a b ∧
      x.vmModuleInit pgtable = .ok (x₂.vmCheck x.kernVma, x₂) := by
  have hinv := h.inv
  have hvk : x.kernVma ∈ (x.withKern pgtable).live .vma := hinv.kern_live
  have hsep : seperateLine L - L.vaStart = L.seperate * pageSize := Nat.add_sub_cancel_left _ _
  have hio : ∀ area : VmaArea, area.vmarTyp = .kernel → area.vmarTyp ≠ .memory := by
    intro area ht
    rw [ht]
    decide
  generalize hr : x.vmModuleInit pgtable = r
  have htext : (x.setVma x.kernVma ⟨some pgtable, x.kernVma, .nil, []⟩).vmMmapInternal
      (x.setVma x.kernVma ⟨some pgtable, x.kernVma, .nil, []⟩).kernVma L.vaStart L.paStart
      (vmProtV ||| vmProtX ||| vmProtR) (L.seperate * pageSize) .kernel false =
      (x.withKern pgtable).vmMmapInternal x.kernVma (kernelText L).va (kernelText L).pa
        (kernelText L).prot (kernelText L).size (kernelText L).vmarTyp false := rfl
  unfold vmModuleInit at hr
  dsimp only at hr
  rw [hsep, htext] at hr
  rcases vmMmapInternal_registered hinv hvk (kernelText_request _) (hio _ rfl) with
    ⟨ret, x₁, hneg, heq, hun⟩ | ⟨a, x₁, heq, hl₁, he₁, hm₁⟩
  · rw [heq] at hr
    dsimp only at hr
    rw [if_pos hneg] at hr
    refine .inl ⟨fun s hs => ?_, hun⟩
    -- the call gives the error back, or stops
    rw [← hr] at hs
    split at hs
    · cases hs
    · cases hs
      omega
  rw [heq] at hr
  dsimp only at hr
  rw [if_neg (lt_irrefl 0)] at hr
  have hinv₁ := hl₁.inv hinv hvk (kernelText_request _) fun hne => absurd rfl hne
  have hk₁ : x₁.kernVma = x.kernVma := hl₁.frame.kernVma
  have hvk₁ : x.kernVma ∈ x₁.live .vma := by
    rw [hl₁.frame.liveVma]
    exact hvk
  have hdata : x₁.vmMmapInternal x₁.kernVma (L.vaStart + L.seperate * pageSize)
      (L.paStart + L.seperate * pageSize) (vmProtV ||| vmProtW ||| vmProtR)
      (L.pageNums * pageSize - L.seperate * pageSize) .kernel false =
      x₁.vmMmapInternal x.kernVma (kernelData L).va (kernelData L).pa (kernelData L).prot
        (kernelData L).size (kernelData L).vmarTyp false := by
    rw [hk₁, ← Nat.sub_mul]
    rfl
  rw [hdata] at hr
  right
  rcases vmMmapInternal_registered hinv₁ hvk₁ (kernelData_request _) (hio _ rfl) with
    ⟨ret, x₂, hneg, heq₂, hun⟩ | ⟨b, x₂, heq₂, hl₂, he₂, hm₂⟩
  · rw [heq₂] at hr
    dsimp only at hr
    rw [if_pos hneg] at hr
    refine .inl ⟨x₁, a, hl₁, hm₁, fun s hs => ?_, hun⟩
    rw [← hr] at hs
    split at hs
    · cases hs
    · cases hs
      omega
  · rw [heq₂] at hr
    dsimp only at hr
    rw [if_neg (lt_irrefl 0), hl₂.frame.kernVma, hk₁] at hr
    exact .inr ⟨x₁, x₂, a, b, ⟨hl₁, he₁, hm₁, hl₂, he₂, hm₂⟩, hr.symm⟩

/-- The data of the kernel goes behind the text. -/
theorem kernelData_behind (L : VmLayout) :
    insertCompareVmarea (kernelData L) (kernelText L) = 1 := by
  have hend : (kernelText L).vaEnd = (kernelData L).va := by
    have h1 := L.vaEnd_le
    have h2 := L.seperate_lt
    refine Nat.mod_eq_of_lt ?_
    show L.vaStart + L.seperate * pageSize < _
    simp only [pageSize, pageOffset] at *
    omega
  exact if_pos hend.le

/-- What is registered is what the boot code mapped. -/
theorem registered {x₁ x₂ : VmState A} {a b : ℕ} (h : x.Boot pgtable)
    (hr : x.Registered pgtable x₁ x₂ a b) : x₂.Booted a b := by
  obtain ⟨hl₁, he₁, -, hl₂, he₂, -⟩ := hr
  have hinv := h.inv
  have hkern := withKern_vmas x pgtable
  have hvk : x.kernVma ∈ (x.withKern pgtable).live .vma := hinv.kern_live
  have hentry : ∀ w, (x.withKern pgtable).entry x.kernVma w = x.mem.leaf 2 pgtable w := by
    intro w
    unfold entry root
    rw [hkern]
    rfl
  have hlist : (x.withKern pgtable).list x.kernVma = [] := by
    unfold list
    rw [hkern]
  have hio : ∀ area : VmaArea, area.vmarTyp = .kernel → area.vmarTyp ≠ .memory := by
    intro area ht
    rw [ht]
    decide
  have hinv₁ := hl₁.inv hinv hvk (kernelText_request _) fun hne => absurd rfl hne
  have hk₁ : x₁.kernVma = x.kernVma := hl₁.frame.kernVma
  have hvk₁ : x.kernVma ∈ x₁.live .vma := by
    rw [hl₁.frame.liveVma]
    exact hvk
  have hinv₂ := hl₂.inv hinv₁ hvk₁ (kernelData_request _) fun hne => absurd rfl hne
  have hk₂ : x₂.kernVma = x.kernVma := hl₂.frame.kernVma.trans hk₁
  have htext : x₁.areas a = kernelText L := by
    rw [hl₁.made, hl₁.unbacked (hio _ rfl)]
    rfl
  have hdata : x₂.areas b = kernelData L := by
    rw [hl₂.made, hl₂.unbacked (hio _ rfl)]
    rfl
  have hlist₁ : x₁.list x.kernVma = [a] := by
    rw [hl₁.list_last (by rw [hlist, hkern]; rfl) (by rw [hlist]; nofun), hlist]
    rfl
  have hab : a ≠ b := by
    rintro rfl
    refine hl₂.fresh ?_
    rw [hl₁.live, Function.update_self]
    exact Finset.mem_insert_self _ _
  refine ⟨hinv₂, fun p hp => ?_, ?_, ?_, ?_, hdata, fun w hw e he => ?_⟩
  · exact absurd (hl₁.types p (hl₂.types p hp)) (h.types p)
  · rw [hl₂.frame.liveVma, hl₁.frame.liveVma, hk₂]
    exact h.liveVma
  · have htree : (x₁.vmas x.kernVma).aRoot.toList = x₁.list x.kernVma :=
      (hinv₁.listed _ hvk₁).toList
    rw [hk₂, hl₂.list_last htree fun y hy => ?_, hlist₁]
    · rfl
    · rw [hlist₁, List.mem_singleton] at hy
      rw [hy, htext, kernelData_behind]
      norm_num
  · rw [hl₂.areas a hab, htext]
  · rw [hk₂, he₂, he₁, hentry]
    exact h.entries w hw e he

/-- What a `vm_module_init` that returns 0 leaves. -/
theorem booted (h : x.Boot pgtable) (hs : x.vmModuleInit pgtable = .ok (0, s)) :
    ∃ text data, s.Booted text data := by
  rcases h.init_cases with ⟨hne, -⟩ | ⟨_, _, -, -, hne, -⟩ | ⟨x₁, x₂, a, b, hr, heq⟩
  · exact absurd hs (hne s)
  · exact absurd hs (hne s)
  · rw [heq] at hs
    obtain rfl : x₂ = s := (Prod.mk.inj (Except.ok.inj hs)).2
    exact ⟨a, b, h.registered hr⟩

end Boot

end VmState

end AcoOs
