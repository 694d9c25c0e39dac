/-
The invariant of the address spaces.

`VmInv` holds between calls, whatever the arguments of the calls are: every address space
has its own page table, its tree and its list hold the same areas, the areas that are in a
list are those that are handed out, and each block that backs areas counts them.

What an area may be is `AreaOk`.  The areas of the kernel are the two that
`vm_module_init` registers, and no other area reaches a position of the kernel.
-/
import AcoOs.VirtualMemory
import AcoOs.AddressSpaces

namespace AcoOs

variable {L : VmLayout} {A : VmEnv L}

/-- The position of a page of the managed range. -/
def kernelPos (L : VmLayout) (w : ℕ) : Prop :=
  ∃ i < L.pageNums, w = L.vaStart / pageSize + i

/-- The area of the kernel's code. -/
def kernelText (L : VmLayout) : VmaArea where
  vmarTyp := .kernel
  va := L.vaStart
  size := L.seperate * pageSize
  pa := L.paStart
  pgfm := none
  prot := vmProtV ||| vmProtX ||| vmProtR

/-- The area of the rest of the managed range. -/
def kernelData (L : VmLayout) : VmaArea where
  vmarTyp := .kernel
  va := L.vaStart + L.seperate * pageSize
  size := (L.pageNums - L.seperate) * pageSize
  pa := L.paStart + L.seperate * pageSize
  pgfm := none
  prot := vmProtV ||| vmProtW ||| vmProtR

/-- The positions of an area, as the page walk counts them. -/
def VmaArea.Covers (area : VmaArea) (w : ℕ) : Prop :=
  Memory.InRange (position 2 area.va) (toInt32 (area.size / pageSize)) w

theorem VmaArea.covers_iff {area : VmaArea} {w : ℕ}
    (hle : position 2 area.va + area.size / pageSize ≤ tableSpan)
    (hsize : area.size % pageSize = 0) (hpos : 0 < area.size) :
    area.Covers w ↔
      position 2 area.va ≤ w ∧ w < position 2 area.va + area.size / pageSize := by
  have hspan : tableSpan = 2 ^ 27 := by norm_num [tableSpan]
  have hpages : 0 < area.size / pageSize :=
    Nat.div_pos (Nat.le_of_dvd hpos (Nat.dvd_of_mod_eq_zero hsize)) (by decide)
  have hint : toInt32 (area.size / pageSize) = (area.size / pageSize : ℕ) :=
    toInt32_of_lt (by omega)
  unfold Covers Memory.InRange
  rw [hint]
  exact and_congr_right fun _ => ⟨fun h => by have := h (by omega); omega, fun h _ => by omega⟩

/-- An area of a list. -/
structure AreaOk (m : Memory A.toPageAllocator) (area : VmaArea) : Prop where
  va_aligned : area.va % pageSize = 0
  pa_aligned : area.pa % pageSize = 0
  size_aligned : area.size % pageSize = 0
  size_pos : 0 < area.size
  va_lt : area.va < 2 ^ 64
  pa_lt : area.pa < 2 ^ 64
  size_lt : area.size < 2 ^ 64
  unbacked : area.vmarTyp ≠ .memory → area.pgfm = none
  backed : area.vmarTyp = .memory → ∃ p o, area.pgfm = some p ∧ m.BacksAreas p o ∧
    area.pa = L.pg2pa p ∧ area.size = 2 ^ o * pageSize
  kernel : area.vmarTyp = .kernel → area = kernelText L ∨ area = kernelData L
  outside : area.vmarTyp ≠ .kernel → ∀ w, area.Covers w → ¬ kernelPos L w

/-- The entry of an area at a position. -/
def VmaArea.pte (area : VmaArea) (w : ℕ) : ℕ :=
  sv39Pa2PTE (advance area.pa (w - position 2 area.va : ℕ)) area.prot

namespace VmState

/-- The page of the root of a page table. -/
def root (x : VmState A) (vma : ℕ) : ℕ := (x.vmas vma).hwPgtable.getD 0

/-- The entries of the managed range in the page table of the kernel are pinned. -/
def pin (x : VmState A) (vma : ℕ) : ℕ → Prop :=
  if vma = x.kernVma then kernelPos L else Memory.noPin

/-- The areas among `S` that a block backs. -/
def backed (x : VmState A) (S : Finset ℕ) (p : ℕ) : Finset ℕ :=
  S.filter fun a => (x.areas a).vmarTyp = .memory ∧ (x.areas a).pgfm = some p

/-- The invariant. -/
structure VmInv (x : VmState A) : Prop where
  kern_live : x.kernVma ∈ x.live .vma
  zero_notMem : 0 ∉ x.live .vma
  kernelVma : ∀ v ∈ x.live .vma, (x.vmas v).kernelVma = x.kernVma
  hwPgtable : ∀ v ∈ x.live .vma, (x.vmas v).hwPgtable = some (x.root v)
  dead : ∀ v, v ∉ x.live .vma → x.vmas v = .zero
  listed : ∀ v ∈ x.live .vma, x.Listed v
  spaces : x.mem.Spaces (x.live .vma) x.root x.pin
  rootBlock : ∀ v ∈ x.live .vma, v ≠ x.kernVma → x.mem.blocks (x.root v) = some 0
  live_iff : ∀ a, a ∈ x.live .vmaArea ↔ ∃ v ∈ x.live .vma, a ∈ x.list v
  owner : ∀ v ∈ x.live .vma, ∀ w ∈ x.live .vma, ∀ a ∈ x.list v, a ∈ x.list w → v = w
  areaOk : ∀ a ∈ x.live .vmaArea, AreaOk x.mem (x.areas a)
  refCount : ∀ p, (x.mem.pages p).pgtype = .vmaArea →
    (x.mem.pages p).refCount = (x.backed (x.live .vmaArea) p).card

variable {x x' : VmState A} {S : Finset ℕ} {v w a p : ℕ}

namespace VmInv

theorem mem_live (h : x.VmInv) (hv : v ∈ x.live .vma) (ha : a ∈ x.list v) :
    a ∈ x.live .vmaArea := (h.live_iff a).2 ⟨v, hv, ha⟩

theorem list_ok (h : x.VmInv) (hv : v ∈ x.live .vma) (ha : a ∈ x.list v) :
    AreaOk x.mem (x.areas a) := h.areaOk a (h.mem_live hv ha)

theorem ne_zero (h : x.VmInv) (hv : v ∈ x.live .vma) : v ≠ 0 := by
  rintro rfl
  exact h.zero_notMem hv

end VmInv

/-- Every block for areas backs one. -/
def Referenced (x : VmState A) : Prop :=
  ∀ p, (x.mem.pages p).pgtype = .vmaArea →
    ∃ a ∈ x.live .vmaArea, (x.areas a).vmarTyp = .memory ∧ (x.areas a).pgfm = some p

theorem VmInv.memory_of_pgfm (h : x.VmInv) (ha : a ∈ x.live .vmaArea)
    (hp : (x.areas a).pgfm = some p) : (x.areas a).vmarTyp = .memory := by
  by_contra hne
  rw [(h.areaOk a ha).unbacked hne] at hp
  cases hp

/-! ### An address space, seen from outside -/

/-- The entry a walk finds at a position of an address space. -/
def entry (x : VmState A) (vma w : ℕ) : Option ℕ := x.mem.leaf 2 (x.root vma) w

/-- The valid entries of an address space stay the same. -/
def SameEntries (x x' : VmState A) (vma : ℕ) : Prop :=
  ∀ w < tableSpan, ∀ e, PteValid e → (x'.entry vma w = some e ↔ x.entry vma w = some e)

theorem SameEntries.of_eq (h : ∀ w < tableSpan, x'.entry v w = x.entry v w) :
    x.SameEntries x' v := fun w hw e _ => by rw [h w hw]

theorem SameEntries.trans {x'' : VmState A} (h : x.SameEntries x' v) (h' : x'.SameEntries x'' v) :
    x.SameEntries x'' v := fun w hw e he => (h' w hw e he).trans (h w hw e he)

/-- An address space has the same areas and the same valid entries. -/
structure SameSpace (x x' : VmState A) (vma : ℕ) : Prop where
  list : x'.list vma = x.list vma
  areas : ∀ a ∈ x.list vma, x'.areas a = x.areas a
  entries : x.SameEntries x' vma

theorem SameSpace.trans {x'' : VmState A} (h : x.SameSpace x' v) (h' : x'.SameSpace x'' v) :
    x.SameSpace x'' v where
  list := h'.list.trans h.list
  areas a ha := by
    rw [h'.areas a (by rw [h.list]; exact ha), h.areas a ha]
  entries := h.entries.trans h'.entries

/-- What a call on one address space leaves alone. -/
structure Frame (x x' : VmState A) (vma : ℕ) : Prop where
  kernVma : x'.kernVma = x.kernVma
  liveVma : x'.live .vma = x.live .vma
  vmas : ∀ w, w ≠ vma → x'.vmas w = x.vmas w
  hwPgtable : (x'.vmas vma).hwPgtable = (x.vmas vma).hwPgtable
  kernelVma : (x'.vmas vma).kernelVma = (x.vmas vma).kernelVma
  entry : ∀ w ∈ x.live .vma, w ≠ vma → ∀ u < tableSpan, x'.entry w u = x.entry w u

namespace Frame

theorem refl (x : VmState A) (v : ℕ) : x.Frame x v :=
  ⟨rfl, rfl, fun _ _ => rfl, rfl, rfl, fun _ _ _ _ _ => rfl⟩

theorem trans {x'' : VmState A} (h : x.Frame x' v) (h' : x'.Frame x'' v) : x.Frame x'' v where
  kernVma := h'.kernVma.trans h.kernVma
  liveVma := h'.liveVma.trans h.liveVma
  vmas w hw := (h'.vmas w hw).trans (h.vmas w hw)
  hwPgtable := h'.hwPgtable.trans h.hwPgtable
  kernelVma := h'.kernelVma.trans h.kernelVma
  entry w hw hne u hu :=
    (h'.entry w (by rw [h.liveVma]; exact hw) hne u hu).trans (h.entry w hw hne u hu)

theorem root (h : x.Frame x' v) (w : ℕ) : x'.root w = x.root w := by
  unfold VmState.root
  by_cases hw : w = v
  · rw [hw, h.hwPgtable]
  · rw [h.vmas w hw]

theorem pin (h : x.Frame x' v) : x'.pin = x.pin := by
  funext w
  unfold VmState.pin
  rw [h.kernVma]

theorem list (h : x.Frame x' v) (hw : w ≠ v) : x'.list w = x.list w := by
  unfold VmState.list
  rw [h.vmas w hw]

end Frame

theorem Frame.of_kept {V : Finset ℕ} (hV : V = x.live .vma)
    (hkept : Memory.Kept V x.root x.pin v x.mem x'.mem) (hkern : x'.kernVma = x.kernVma)
    (hlive : x'.live .vma = x.live .vma) (hvmas : ∀ w, w ≠ v → x'.vmas w = x.vmas w)
    (hpg : (x'.vmas v).hwPgtable = (x.vmas v).hwPgtable)
    (hkv : (x'.vmas v).kernelVma = (x.vmas v).kernelVma) : x.Frame x' v where
  kernVma := hkern
  liveVma := hlive
  vmas := hvmas
  hwPgtable := hpg
  kernelVma := hkv
  entry w hw hne u hu := by
    have hroot : x'.root w = x.root w := by
      unfold VmState.root
      rw [hvmas w hne]
    unfold VmState.entry
    rw [hroot]
    exact Memory.leaf_untouched (hkept.others w (by rw [hV]; exact hw) hne) hu

theorem backed_congr (h : ∀ a ∈ S, x'.areas a = x.areas a) (p : ℕ) :
    x'.backed S p = x.backed S p := by
  unfold backed
  refine Finset.filter_congr fun a ha => ?_
  rw [h a ha]

/-! ### The object caches -/

theorem live_evolves {s t : A.State} (h : A.Evolves s t) : A.live t = A.live s :=
  h.keep A.alloc_live A.free_live

/-- Only the allocators changed, and no page became free. -/
structure AtAllocators (x x' : VmState A) : Prop where
  vmas : x'.vmas = x.vmas
  areas : x'.areas = x.areas
  kernVma : x'.kernVma = x.kernVma
  pages : x'.mem.pages = x.mem.pages
  words : x'.mem.words = x.mem.words
  blocks : x'.mem.blocks = x.mem.blocks
  free : x'.mem.freePages ⊆ x.mem.freePages

theorem objAlloc_at (x : VmState A) (k : VmCache) : x.AtAllocators (x.objAlloc k).2 where
  vmas := rfl
  areas := rfl
  kernVma := rfl
  pages := rfl
  words := rfl
  blocks := (A.objAlloc_pages x.mem.buddy k).2
  free := (A.objAlloc_pages x.mem.buddy k).1

theorem objAlloc_none {k : VmCache} (h : x.objAlloc k = (none, x')) :
    x.AtAllocators x' ∧ x'.live = x.live := by
  have hat := objAlloc_at x k
  rw [h] at hat
  unfold objAlloc at h
  obtain ⟨h1, h2⟩ := Prod.mk.inj h
  refine ⟨hat, ?_⟩
  rw [← h2]
  exact A.objAlloc_none x.mem.buddy k h1

theorem objAlloc_some {k : VmCache} (h : x.objAlloc k = (some a, x')) :
    x.AtAllocators x' ∧ a ≠ 0 ∧ a ∉ x.live k ∧
      x'.live = Function.update x.live k (insert a (x.live k)) := by
  have hat := objAlloc_at x k
  rw [h] at hat
  unfold objAlloc at h
  obtain ⟨h1, h2⟩ := Prod.mk.inj h
  obtain ⟨h3, h4, h5⟩ := A.objAlloc_some x.mem.buddy k a h1
  refine ⟨hat, h3, h4, ?_⟩
  rw [← h2]
  exact h5

theorem objFree_some {k : VmCache} (ha : a ∈ x.live k) : ∃ x', x.objFree k a = some x' ∧
    x.AtAllocators x' ∧ x'.mem.freePages = x.mem.freePages ∧
    x'.live = Function.update x.live k ((x.live k).erase a) := by
  obtain ⟨s, hs, hset, hlive⟩ := A.objFree_live x.mem.buddy k a ha
  have hfree : A.freePages s = A.freePages x.mem.buddy := congrArg PageSet.free hset
  have hblocks : A.blocks s = A.blocks x.mem.buddy := congrArg PageSet.blocks hset
  refine ⟨{ x with mem := { x.mem with buddy := s } }, ?_,
    ⟨rfl, rfl, rfl, rfl, rfl, hblocks, hfree.subset⟩, hfree, hlive⟩
  unfold objFree
  rw [hs]
  rfl

namespace AtAllocators

theorem trans {x'' : VmState A} (h : x.AtAllocators x') (h' : x'.AtAllocators x'') :
    x.AtAllocators x'' where
  vmas := h'.vmas.trans h.vmas
  areas := h'.areas.trans h.areas
  kernVma := h'.kernVma.trans h.kernVma
  pages := h'.pages.trans h.pages
  words := h'.words.trans h.words
  blocks := h'.blocks.trans h.blocks
  free := h'.free.trans h.free

theorem kept {V : Finset ℕ} {root : ℕ → ℕ} {pin : ℕ → ℕ → Prop} (h : x.AtAllocators x')
    (hsp : x.mem.Spaces V root pin) : Memory.Kept V root pin v x.mem x'.mem :=
  .of_shrink hsp h.free h.blocks h.pages h.words

theorem leaf (h : x.AtAllocators x') (d t u : ℕ) : x'.mem.leaf d t u = x.mem.leaf d t u := by
  unfold Memory.leaf
  rw [h.words]

theorem root (h : x.AtAllocators x') : x'.root = x.root := by
  unfold VmState.root
  rw [h.vmas]

theorem list (h : x.AtAllocators x') : x'.list = x.list := by
  unfold VmState.list
  rw [h.vmas]

theorem pin (h : x.AtAllocators x') : x'.pin = x.pin := by
  unfold VmState.pin
  rw [h.kernVma]

theorem inTheWay (h : x.AtAllocators x') : x'.inTheWay = x.inTheWay := by
  unfold VmState.inTheWay
  rw [h.vmas, h.areas]

end AtAllocators

/-! ### Keeping the invariant -/

theorem Listed.congr (h : x.Listed w) (hw : x'.vmas w = x.vmas w) : x'.Listed w := by
  obtain ⟨h1, h2⟩ := h
  unfold list at h1 h2
  refine ⟨?_, ?_⟩
  · unfold list
    rw [hw, h1]
  · unfold list
    rwa [hw]

/-- A call on one address space keeps the invariant when it keeps the parts of it that it
can touch. -/
theorem VmInv.step (h : x.VmInv) (hf : x.Frame x' v) (hv : v ∈ x.live .vma)
    (hlist : x'.Listed v)
    (hspaces : x'.mem.Spaces (x.live .vma) x.root x.pin)
    (hroot : ∀ w ∈ x.live .vma, w ≠ x.kernVma → x'.mem.blocks (x.root w) = x.mem.blocks (x.root w))
    (hiff : ∀ a, a ∈ x'.live .vmaArea ↔ a ∈ x'.list v ∨ a ∈ x.live .vmaArea ∧ a ∉ x.list v)
    (hfresh : ∀ a ∈ x'.list v, a ∈ x.list v ∨ a ∉ x.live .vmaArea)
    (hok : ∀ a ∈ x'.live .vmaArea, AreaOk x'.mem (x'.areas a))
    (href : ∀ p, (x'.mem.pages p).pgtype = .vmaArea →
      (x'.mem.pages p).refCount = (x'.backed (x'.live .vmaArea) p).card) : x'.VmInv where
  kern_live := by rw [hf.liveVma, hf.kernVma]; exact h.kern_live
  zero_notMem := by rw [hf.liveVma]; exact h.zero_notMem
  kernelVma w hw := by
    rw [hf.liveVma] at hw
    rw [hf.kernVma]
    by_cases hwv : w = v
    · rw [hwv, hf.kernelVma]
      exact h.kernelVma v hv
    · rw [hf.vmas w hwv]
      exact h.kernelVma w hw
  hwPgtable w hw := by
    rw [hf.liveVma] at hw
    rw [hf.root]
    by_cases hwv : w = v
    · rw [hwv, hf.hwPgtable]
      exact h.hwPgtable v hv
    · rw [hf.vmas w hwv]
      exact h.hwPgtable w hw
  dead w hw := by
    rw [hf.liveVma] at hw
    rw [hf.vmas w fun he => hw (he ▸ hv)]
    exact h.dead w hw
  listed w hw := by
    rw [hf.liveVma] at hw
    by_cases hwv : w = v
    · rw [hwv]
      exact hlist
    · exact (h.listed w hw).congr (hf.vmas w hwv)
  spaces := by
    rw [hf.liveVma, hf.pin]
    exact hspaces.congr (fun w _ => hf.root w) fun _ _ => rfl
  rootBlock w hw hne := by
    rw [hf.liveVma] at hw
    rw [hf.kernVma] at hne
    rw [hf.root, hroot w hw hne]
    exact h.rootBlock w hw hne
  live_iff a := by
    rw [hf.liveVma, hiff]
    constructor
    · rintro (ha | ⟨ha, hal⟩)
      · exact ⟨v, hv, ha⟩
      · obtain ⟨w, hw, haw⟩ := (h.live_iff a).1 ha
        have hwv : w ≠ v := fun he => hal (he ▸ haw)
        exact ⟨w, hw, by rw [hf.list hwv]; exact haw⟩
    · rintro ⟨w, hw, ha⟩
      by_cases hwv : w = v
      · exact .inl (hwv ▸ ha)
      · rw [hf.list hwv] at ha
        exact .inr ⟨h.mem_live hw ha, fun hav => hwv (h.owner w hw v hv a ha hav)⟩
  owner := by
    have hother : ∀ w ∈ x.live .vma, w ≠ v → ∀ a ∈ x'.list v, a ∉ x'.list w := by
      intro w hw hwv a ha haw
      rw [hf.list hwv] at haw
      rcases hfresh a ha with ha | ha
      · exact hwv (h.owner w hw v hv a haw ha)
      · exact ha (h.mem_live hw haw)
    intro w hw u hu a haw hau
    rw [hf.liveVma] at hw hu
    by_cases hwv : w = v
    · by_cases huv : u = v
      · rw [hwv, huv]
      · rw [hwv] at haw
        exact absurd hau (hother u hu huv a haw)
    · by_cases huv : u = v
      · rw [huv] at hau
        exact absurd haw (hother w hw hwv a hau)
      · rw [hf.list hwv] at haw
        rw [hf.list huv] at hau
        exact h.owner w hw u hu a haw hau
  areaOk := hok
  refCount := href

end VmState

theorem AreaOk.mono {m m' : Memory A.toPageAllocator} {area : VmaArea} (h : AreaOk m area)
    (hb : ∀ p o, area.pgfm = some p → m.BacksAreas p o → m'.BacksAreas p o) : AreaOk m' area where
  va_aligned := h.va_aligned
  pa_aligned := h.pa_aligned
  size_aligned := h.size_aligned
  size_pos := h.size_pos
  va_lt := h.va_lt
  pa_lt := h.pa_lt
  size_lt := h.size_lt
  unbacked := h.unbacked
  backed ht := by
    obtain ⟨p, o, hp, ho, h1, h2⟩ := h.backed ht
    exact ⟨p, o, hp, hb p o hp ho, h1, h2⟩
  kernel := h.kernel
  outside := h.outside

end AcoOs
