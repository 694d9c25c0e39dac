/-
What one section of a call does to the books.

Besides the memory a section changes one object of a cache, one list, one block with one of its
areas, or it makes or frees one address space.  Each of these keeps `Books`, and `Changes` says what
the others see of it.
-/
import AcoOs.VmBooks

namespace AcoOs

open Memory

variable {L : VmLayout} {A : VmEnv L}

namespace VmState

variable {x x' y : VmState A} {v w a b p o : ℕ} {O W H P : Set ℕ} {area : VmaArea}

/-! ### One area object -/

/-- The object `a`, which hangs nowhere and refers to no block, was allocated or freed. -/
structure OnlyObject (x x' : VmState A) (a : ℕ) : Prop where
  vmas : x'.vmas = x.vmas
  kernVma : x'.kernVma = x.kernVma
  pages : x'.mem.pages = x.mem.pages
  words : x'.mem.words = x.mem.words
  blocks : x'.mem.blocks = x.mem.blocks
  free : x'.mem.freePages ⊆ x.mem.freePages
  liveVma : x'.live .vma = x.live .vma
  live : ∀ b, b ≠ a → (b ∈ x'.live .vmaArea ↔ b ∈ x.live .vmaArea)
  areas : ∀ b, b ≠ a → x'.areas b = x.areas b
  apart : ∀ v ∈ x.tabled, a ∉ x.list v
  unused : a ∈ x.live .vmaArea → ∀ p, ¬ x.RefersTo a p
  unused' : a ∈ x'.live .vmaArea → ∀ p, ¬ x'.RefersTo a p
  fits : a ∈ x'.live .vmaArea → (x'.areas a).Fits

namespace OnlyObject

theorem tabled (h : x.OnlyObject x' a) : x'.tabled = x.tabled := by
  unfold VmState.tabled
  rw [h.vmas, h.liveVma]

theorem root (h : x.OnlyObject x' a) : x'.root = x.root := by
  unfold VmState.root
  rw [h.vmas]

theorem list (h : x.OnlyObject x' a) : x'.list = x.list := by
  unfold VmState.list
  rw [h.vmas]

theorem pin (h : x.OnlyObject x' a) : x'.pin = x.pin := by
  unfold VmState.pin
  rw [h.kernVma]

theorem tables (h : x.OnlyObject x' a) (t : ℕ) : x'.mem.tables 2 t = x.mem.tables 2 t :=
  Radix.tables_congr fun q _ => congrFun h.words q

theorem backs (h : x.OnlyObject x' a) : x'.mem.BacksAreas p o ↔ x.mem.BacksAreas p o := by
  constructor
  · rintro ⟨h1, h2, h3, h4⟩
    rw [h.pages] at h1 h3 h4
    rw [h.blocks] at h2
    exact ⟨h1, h2, h3, h4⟩
  · rintro ⟨h1, h2, h3, h4⟩
    refine ⟨by rwa [h.pages], by rwa [h.blocks], by rwa [h.pages], by rwa [h.pages]⟩

/-- The areas that refer to a block are the same as before. -/
theorem refersTo (h : x.OnlyObject x' a) : b ∈ x'.live .vmaArea ∧ x'.RefersTo b p ↔
    b ∈ x.live .vmaArea ∧ x.RefersTo b p := by
  by_cases hba : b = a
  · rw [hba]
    exact ⟨fun hr => absurd hr.2 (h.unused' hr.1 p), fun hr => absurd hr.2 (h.unused hr.1 p)⟩
  · unfold RefersTo
    rw [h.live b hba, h.areas b hba]

theorem ne (h : x.OnlyObject x' a) (hb : b ∈ x.live .vmaArea) (hr : x.RefersTo b p) : b ≠ a :=
  fun he => h.unused (he ▸ hb) p (he ▸ hr)

theorem books (h : x.OnlyObject x' a) (hb : x.Books) : x'.Books where
  kern := by rw [h.kernVma, h.tabled]; exact hb.kern
  dead := by rw [h.liveVma, h.vmas]; exact hb.dead
  listed := by
    rw [h.tabled]
    exact fun v hv => (hb.listed v hv).congr (by rw [h.vmas])
  mem_live := by
    rw [h.tabled, h.list]
    exact fun v hv b hbl => (h.live b fun he => h.apart v hv (he ▸ hbl)).2 (hb.mem_live v hv b hbl)
  owner := by rw [h.tabled, h.list]; exact hb.owner
  spaces := by
    rw [h.tabled, h.root, h.pin]
    exact (hb.spaces.shrink h.free h.blocks h.pages h.words).1
  fits b hbl := by
    by_cases hba : b = a
    · rw [hba] at hbl ⊢
      exact h.fits hbl
    · rw [h.areas b hba]
      exact hb.fits b ((h.live b hba).1 hbl)
  refers b hbl p hr := by
    obtain ⟨hbl', hr'⟩ := h.refersTo.1 ⟨hbl, hr⟩
    obtain ⟨o, h1, h2, h3⟩ := hb.refers b hbl' p hr'
    have hba := h.areas b (h.ne hbl' hr')
    exact ⟨o, h.backs.2 h1, by rw [hba]; exact h2, by rw [hba]; exact h3⟩
  agree b hbl c hcl p hrb hrc := by
    obtain ⟨hbl', hrb'⟩ := h.refersTo.1 ⟨hbl, hrb⟩
    obtain ⟨hcl', hrc'⟩ := h.refersTo.1 ⟨hcl, hrc⟩
    rw [h.areas b (h.ne hbl' hrb'), h.areas c (h.ne hcl' hrc')]
    exact hb.agree b hbl' c hcl' p hrb' hrc'
  refCount p hp := by
    rw [h.pages] at hp ⊢
    have hsame : x'.backed (x'.live .vmaArea) p = x.backed (x.live .vmaArea) p := by
      ext b
      unfold backed
      rw [Finset.mem_filter, Finset.mem_filter]
      exact h.refersTo
    rw [hsame]
    exact hb.refCount p hp

theorem changes (h : x.OnlyObject x' a) : x.Changes x' ∅ ∅ {a} ∅ where
  kernVma := h.kernVma
  live v hv _ := by
    rw [h.liveVma, h.vmas]
    exact ⟨hv, rfl⟩
  vmas v _ _ := by rw [h.vmas]
  areas b hbl hba := ⟨(h.live b hba).2 hbl, h.areas b hba⟩
  listed v hv b hbl _ := by
    rw [h.tabled] at hv
    rw [h.list] at hbl
    exact ⟨hv, hbl⟩
  loose p hp _ := by
    unfold Loose at hp ⊢
    simp only [h.blocks, h.pages, h.tabled, h.root, h.tables]
    exact hp
  fresh p hp _ := by
    obtain ⟨⟨o, ho⟩, hu⟩ := hp
    refine ⟨⟨o, h.backs.2 ho⟩, fun b hbl hr => ?_⟩
    obtain ⟨hbl', hr'⟩ := h.refersTo.1 ⟨hbl, hr⟩
    exact hu b hbl' hr'
  guarded c _ hca hg ht hp := by
    rw [h.areas c hca] at ht hp ⊢
    obtain ⟨b, hbl, p, hr, h1⟩ := hg ht hp
    obtain ⟨hbl', hr'⟩ := h.refersTo.2 ⟨hbl, hr⟩
    refine ⟨b, hbl', p, hr', ?_⟩
    rw [h.areas b (h.ne hbl hr)]
    exact h1

end OnlyObject

/-- `kmem_obj_alloc` and `vma_area_val_init`. -/
theorem Books.allocArea (hb : x.Books) (h : x.objAlloc .vmaArea = (some a, y))
    (hfits : area.Fits) (hpg : area.pgfm = none) : x.OnlyObject (y.setArea a area) a ∧
      (y.setArea a area).Apart a ∧ a ∉ x.live .vmaArea ∧ (y.setArea a area).areas a = area := by
  obtain ⟨hat, -, hfresh, hlive⟩ := objAlloc_some h
  have hself : (y.setArea a area).areas a = area :=
    Function.update_self (β := fun _ => VmaArea) _ _ _
  have hareas : (y.setArea a area).live .vmaArea = insert a (x.live .vmaArea) := by
    show y.live .vmaArea = _
    rw [hlive, Function.update_self]
  have hn : ∀ v ∈ x.tabled, a ∉ x.list v := fun v hv ha => hfresh (hb.mem_live v hv a ha)
  have hobj : x.OnlyObject (y.setArea a area) a := by
    refine ⟨hat.vmas, hat.kernVma, hat.pages, hat.words, hat.blocks, hat.free, ?_, fun b hba => ?_,
      fun b hba => ?_, hn, fun ha => absurd ha hfresh, fun _ p hr => ?_, fun _ => ?_⟩
    · show y.live .vma = _
      rw [hlive]
      rfl
    · rw [hareas, Finset.mem_insert, or_iff_right hba]
    · show Function.update y.areas a area b = _
      rw [Function.update_of_ne hba, hat.areas]
    · have hp := hr.2
      rw [hself, hpg] at hp
      cases hp
    · rw [hself]
      exact hfits
  refine ⟨hobj, ⟨?_, fun v hv => ?_⟩, hfresh, hself⟩
  · rw [hareas]
    exact Finset.mem_insert_self a _
  · rw [hobj.tabled] at hv
    rw [hobj.list]
    exact hn v hv

/-- `kmem_obj_free` of an area that refers to no block. -/
theorem Books.freeArea (ha : x.Apart a) (hu : ∀ p, ¬ x.RefersTo a p)
    (h : x.objFree .vmaArea a = some x') : x.OnlyObject x' a := by
  obtain ⟨z, hz, hat, -, hlive⟩ := objFree_some ha.1
  rw [h] at hz
  cases hz
  have hareas : x'.live .vmaArea = (x.live .vmaArea).erase a := by
    rw [hlive, Function.update_self]
  have hdead : a ∉ x'.live .vmaArea := by
    rw [hareas]
    exact Finset.notMem_erase a _
  refine ⟨hat.vmas, hat.kernVma, hat.pages, hat.words, hat.blocks, hat.free, ?_, fun b hba => ?_,
    fun b _ => by rw [hat.areas], ha.2, fun _ => hu, fun ha' => absurd ha' hdead,
    fun ha' => absurd ha' hdead⟩
  · rw [hlive]
    rfl
  · rw [hareas, Finset.mem_erase, and_iff_right hba]

/-! ### One list -/

/-- Area `a` was put on the list of `v` or taken off it. -/
structure OnlyList (x x' : VmState A) (v a : ℕ) : Prop where
  mem : x'.mem = x.mem
  areas : x'.areas = x.areas
  kernVma : x'.kernVma = x.kernVma
  vmas : ∀ w, w ≠ v → x'.vmas w = x.vmas w
  hwPgtable : (x'.vmas v).hwPgtable = (x.vmas v).hwPgtable
  listed : x'.Listed v
  list : ∀ b, b ≠ a → (b ∈ x'.list v ↔ b ∈ x.list v)
  live : a ∈ x.live .vmaArea
  apart : ∀ w ∈ x.tabled, w ≠ v → a ∉ x.list w

namespace OnlyList

theorem live_eq (h : x.OnlyList x' v a) : x'.live = x.live := by
  unfold VmState.live
  rw [h.mem]

theorem hwPgtable_eq (h : x.OnlyList x' v a) (w : ℕ) :
    (x'.vmas w).hwPgtable = (x.vmas w).hwPgtable := by
  by_cases hw : w = v
  · rw [hw, h.hwPgtable]
  · rw [h.vmas w hw]

theorem tabled (h : x.OnlyList x' v a) : x'.tabled = x.tabled := by
  unfold VmState.tabled
  simp only [h.hwPgtable_eq, h.live_eq]

theorem root (h : x.OnlyList x' v a) : x'.root = x.root := by
  funext w
  unfold VmState.root
  rw [h.hwPgtable_eq]

theorem pin (h : x.OnlyList x' v a) : x'.pin = x.pin := by
  unfold VmState.pin
  rw [h.kernVma]

theorem list_of_ne (h : x.OnlyList x' v a) (hw : w ≠ v) : x'.list w = x.list w := by
  unfold VmState.list
  rw [h.vmas w hw]

theorem refersTo (h : x.OnlyList x' v a) : x'.RefersTo b p ↔ x.RefersTo b p := by
  unfold RefersTo
  rw [h.areas]

/-- Only area `a` can be on another list than before. -/
theorem list_or (h : x.OnlyList x' v a) (hb : b ∈ x'.list w) :
    b ∈ x.list w ∨ w = v ∧ b = a := by
  by_cases hw : w = v
  · subst hw
    by_cases hba : b = a
    · exact .inr ⟨rfl, hba⟩
    · exact .inl ((h.list b hba).1 hb)
  · rw [h.list_of_ne hw] at hb
    exact .inl hb

theorem books (h : x.OnlyList x' v a) (hb : x.Books) (hv : v ∈ x.tabled) : x'.Books where
  kern := by rw [h.kernVma, h.tabled]; exact hb.kern
  dead w hw := by
    rw [h.live_eq] at hw
    rw [h.vmas w fun he => hw (he ▸ (mem_tabled.1 hv).1)]
    exact hb.dead w hw
  listed w hw := by
    rw [h.tabled] at hw
    by_cases hwv : w = v
    · rw [hwv]
      exact h.listed
    · exact (hb.listed w hw).congr (h.vmas w hwv)
  mem_live w hw b hbl := by
    rw [h.tabled] at hw
    rw [h.live_eq]
    rcases h.list_or hbl with hbl | ⟨-, rfl⟩
    · exact hb.mem_live w hw b hbl
    · exact h.live
  owner w hw u hu b hbw hbu := by
    rw [h.tabled] at hw hu
    rcases h.list_or hbw with hbw | ⟨rfl, rfl⟩
    · rcases h.list_or hbu with hbu | ⟨rfl, rfl⟩
      · exact hb.owner w hw u hu b hbw hbu
      · by_contra hne
        exact h.apart w hw hne hbw
    · rcases h.list_or hbu with hbu | ⟨rfl, -⟩
      · by_contra hne
        exact h.apart u hu (Ne.symm hne) hbu
      · rfl
  spaces := by rw [h.tabled, h.root, h.pin, h.mem]; exact hb.spaces
  fits := by rw [h.live_eq, h.areas]; exact hb.fits
  refers b hbl p hr := by
    rw [h.live_eq] at hbl
    obtain ⟨o, h1, h2, h3⟩ := hb.refers b hbl p (h.refersTo.1 hr)
    exact ⟨o, by rw [h.mem]; exact h1, by rw [h.areas]; exact h2, by rw [h.areas]; exact h3⟩
  agree b hbl c hcl p hrb hrc := by
    rw [h.live_eq] at hbl hcl
    rw [h.areas]
    exact hb.agree b hbl c hcl p (h.refersTo.1 hrb) (h.refersTo.1 hrc)
  refCount p hp := by
    rw [h.mem] at hp ⊢
    rw [h.live_eq, backed_congr fun b _ => congrFun h.areas b]
    exact hb.refCount p hp

theorem changes (h : x.OnlyList x' v a) : x.Changes x' ∅ {v} {a} ∅ where
  kernVma := h.kernVma
  live w hw _ := by
    rw [h.live_eq]
    exact ⟨hw, h.hwPgtable_eq w⟩
  vmas w _ hw := h.vmas w hw
  areas b hbl _ := by
    rw [h.live_eq, h.areas]
    exact ⟨hbl, rfl⟩
  listed w hw b hbl hba := by
    rw [h.tabled] at hw
    rcases h.list_or hbl with hbl | ⟨-, rfl⟩
    · exact ⟨hw, hbl⟩
    · exact absurd rfl hba
  loose p hp _ := by
    unfold Loose at hp ⊢
    simp only [h.mem, h.tabled, h.root]
    exact hp
  fresh p hp _ := by
    unfold Fresh at hp ⊢
    simp only [h.mem, h.live_eq, h.refersTo]
    exact hp
  guarded c _ _ hg := by
    unfold Guarded at hg ⊢
    simp only [h.live_eq, h.refersTo, h.areas]
    exact hg

end OnlyList

/-- `vma_area_hang`: nothing happens, or the area is on the list. -/
theorem Books.hang (hb : x.Books) (hv : v ∈ x.tabled) (ha : x.Apart a) {ret : ℤ}
    (h : x.vmaAreaHang v a = (ret, x')) :
    ret ≠ 0 ∧ x' = x ∨ ret = 0 ∧ x.OnlyList x' v a ∧ a ∈ x'.list v := by
  by_cases hway : x.inTheWay v (x.areas a) = none
  · right
    have hn := ha.2 v hv
    obtain ⟨l, r, root, hl, -, hroot, hhang⟩ := (hb.listed v hv).hang hn hway
    rw [hhang] at h
    obtain ⟨rfl, rfl⟩ := Prod.mk.inj h
    have hself : (x.setVma v { x.vmas v with aRoot := root, lList := l ++ a :: r }).vmas v =
        { x.vmas v with aRoot := root, lList := l ++ a :: r } :=
      Function.update_self (β := fun _ => Vma) _ _ _
    have hlist : (x.setVma v { x.vmas v with aRoot := root, lList := l ++ a :: r }).list v =
        l ++ a :: r := by
      unfold VmState.list
      rw [hself]
    refine ⟨rfl, ⟨rfl, rfl, rfl, fun w hw => Function.update_of_ne (β := fun _ => Vma) hw _ _,
      by rw [hself], ⟨?_, ?_⟩, fun b hba => ?_, ha.1, fun w hw _ => ha.2 w hw⟩, ?_⟩
    · rw [hlist, hself]
      exact hroot
    · have hnd := (hb.listed v hv).nodup
      rw [hl] at hnd hn
      rw [hlist, List.nodup_middle, List.nodup_cons]
      exact ⟨hn, hnd⟩
    · rw [hlist, hl]
      simp only [List.mem_append, List.mem_cons, or_iff_right hba]
    · rw [hlist]
      exact List.mem_append_right _ List.mem_cons_self
  · left
    rw [hang_refused hway] at h
    obtain ⟨rfl, rfl⟩ := Prod.mk.inj h
    exact ⟨by decide, rfl⟩

/-- `vma_area_unhang`. -/
theorem Books.unhang (hb : x.Books) (hv : v ∈ x.tabled) (ha : a ∈ x.list v) :
    x.OnlyList (x.vmaAreaUnhang v a) v a ∧ (x.vmaAreaUnhang v a).Apart a := by
  have hself : (x.vmaAreaUnhang v a).vmas v = { x.vmas v with
      lList := (x.vmas v).lList.erase a, aRoot := A.nodeErase (x.vmas v).aRoot a } :=
    Function.update_self (β := fun _ => Vma) _ _ _
  have hlist : (x.vmaAreaUnhang v a).list v = (x.list v).erase a := by
    unfold VmState.list
    rw [hself]
  obtain ⟨htree, hnd⟩ := hb.listed v hv
  have hlive := hb.mem_live v hv a ha
  have hother : ∀ w ∈ x.tabled, w ≠ v → a ∉ x.list w := fun w hw hne haw =>
    hne (hb.owner w hw v hv a haw ha)
  have hl : x.OnlyList (x.vmaAreaUnhang v a) v a := by
    refine ⟨rfl, rfl, rfl, fun w hw => Function.update_of_ne (β := fun _ => Vma) hw _ _,
      by rw [hself], ⟨?_, ?_⟩, fun b hba => ?_, hlive, hother⟩
    · rw [hlist, hself]
      show (A.nodeErase (x.vmas v).aRoot a).toList = _
      rw [A.toList_nodeErase, htree]
    · rw [hlist]
      exact hnd.erase a
    · rw [hlist, hnd.mem_erase_iff, and_iff_right hba]
  refine ⟨hl, hlive, fun w hw => ?_⟩
  rw [hl.tabled] at hw
  by_cases hwv : w = v
  · rw [hwv, hlist]
    exact hnd.not_mem_erase
  · rw [hl.list_of_ne hwv]
    exact hother w hw hwv

/-! ### One address space -/

/-- The object `v` was allocated or freed; it has no page table afterwards. -/
structure OnlySpace (x x' : VmState A) (v : ℕ) : Prop where
  areas : x'.areas = x.areas
  kernVma : x'.kernVma = x.kernVma
  pages : x'.mem.pages = x.mem.pages
  words : x'.mem.words = x.mem.words
  blocks : x'.mem.blocks = x.mem.blocks
  free : x'.mem.freePages ⊆ x.mem.freePages
  liveAreas : x'.live .vmaArea = x.live .vmaArea
  live : ∀ w, w ≠ v → (w ∈ x'.live .vma ↔ w ∈ x.live .vma)
  vmas : ∀ w, w ≠ v → x'.vmas w = x.vmas w
  zero : x'.vmas v = .zero
  ne : v ≠ x.kernVma

namespace OnlySpace

theorem tabled_iff (h : x.OnlySpace x' v) : w ∈ x'.tabled ↔ w ≠ v ∧ w ∈ x.tabled := by
  rw [mem_tabled, mem_tabled]
  by_cases hw : w = v
  · rw [hw, h.zero]
    exact ⟨fun hc => absurd rfl hc.2, fun hc => absurd rfl hc.1⟩
  · rw [h.live w hw, h.vmas w hw]
    exact ⟨fun hc => ⟨hw, hc⟩, And.right⟩

theorem root (h : x.OnlySpace x' v) (hw : w ≠ v) : x'.root w = x.root w := by
  unfold VmState.root
  rw [h.vmas w hw]

theorem list (h : x.OnlySpace x' v) (hw : w ≠ v) : x'.list w = x.list w := by
  unfold VmState.list
  rw [h.vmas w hw]

theorem pin (h : x.OnlySpace x' v) : x'.pin = x.pin := by
  unfold VmState.pin
  rw [h.kernVma]

theorem tables (h : x.OnlySpace x' v) (t : ℕ) : x'.mem.tables 2 t = x.mem.tables 2 t :=
  Radix.tables_congr fun q _ => congrFun h.words q

theorem backs (h : x.OnlySpace x' v) : x'.mem.BacksAreas p o ↔ x.mem.BacksAreas p o := by
  constructor
  · rintro ⟨h1, h2, h3, h4⟩
    rw [h.pages] at h1 h3 h4
    rw [h.blocks] at h2
    exact ⟨h1, h2, h3, h4⟩
  · rintro ⟨h1, h2, h3, h4⟩
    refine ⟨by rwa [h.pages], by rwa [h.blocks], by rwa [h.pages], by rwa [h.pages]⟩

theorem refersTo (h : x.OnlySpace x' v) : x'.RefersTo b p ↔ x.RefersTo b p := by
  unfold RefersTo
  rw [h.areas]

theorem books (h : x.OnlySpace x' v) (hb : x.Books) : x'.Books where
  kern := by
    rw [h.kernVma, h.tabled_iff]
    exact ⟨Ne.symm h.ne, hb.kern⟩
  dead w hw := by
    by_cases hwv : w = v
    · rw [hwv]
      exact h.zero
    · rw [h.vmas w hwv]
      exact hb.dead w fun hwl => hw ((h.live w hwv).2 hwl)
  listed w hw := by
    obtain ⟨hwv, hw⟩ := h.tabled_iff.1 hw
    exact (hb.listed w hw).congr (h.vmas w hwv)
  mem_live w hw b hbl := by
    obtain ⟨hwv, hw⟩ := h.tabled_iff.1 hw
    rw [h.list hwv] at hbl
    rw [h.liveAreas]
    exact hb.mem_live w hw b hbl
  owner w hw u hu b hbw hbu := by
    obtain ⟨hwv, hw⟩ := h.tabled_iff.1 hw
    obtain ⟨huv, hu⟩ := h.tabled_iff.1 hu
    rw [h.list hwv] at hbw
    rw [h.list huv] at hbu
    exact hb.owner w hw u hu b hbw hbu
  spaces := by
    have hsp := (hb.spaces.shrink h.free h.blocks h.pages h.words).1
    refine (hsp.mono fun w (hw : w ∈ x'.tabled) => (h.tabled_iff.1 hw).2).congr ?_ ?_
    · exact fun w hw => h.root (h.tabled_iff.1 hw).1
    · intro w _
      rw [h.pin]
  fits := by rw [h.liveAreas, h.areas]; exact hb.fits
  refers b hbl p hr := by
    rw [h.liveAreas] at hbl
    obtain ⟨o, h1, h2, h3⟩ := hb.refers b hbl p (h.refersTo.1 hr)
    exact ⟨o, h.backs.2 h1, by rw [h.areas]; exact h2, by rw [h.areas]; exact h3⟩
  agree b hbl c hcl p hrb hrc := by
    rw [h.liveAreas] at hbl hcl
    rw [h.areas]
    exact hb.agree b hbl c hcl p (h.refersTo.1 hrb) (h.refersTo.1 hrc)
  refCount p hp := by
    rw [h.pages] at hp ⊢
    rw [h.liveAreas, backed_congr fun b _ => congrFun h.areas b]
    exact hb.refCount p hp

theorem changes (h : x.OnlySpace x' v) : x.Changes x' {v} {v} ∅ ∅ where
  kernVma := h.kernVma
  live w hw hwv := by
    rw [h.vmas w hwv]
    exact ⟨(h.live w hwv).2 hw, rfl⟩
  vmas w _ hwv := h.vmas w hwv
  areas b hbl _ := by
    rw [h.liveAreas, h.areas]
    exact ⟨hbl, rfl⟩
  listed w hw b hbl _ := by
    obtain ⟨hwv, hw⟩ := h.tabled_iff.1 hw
    rw [h.list hwv] at hbl
    exact ⟨hw, hbl⟩
  loose p hp _ := by
    obtain ⟨o, h1, h2, h3, h4, h5⟩ := hp
    refine ⟨o, by rwa [h.blocks], by rwa [h.pages], by rwa [h.pages], by rwa [h.pages],
      fun w hw q hq => ?_⟩
    obtain ⟨hwv, hw⟩ := h.tabled_iff.1 hw
    rw [h.root hwv, h.tables] at hq
    exact h5 w hw q hq
  fresh p hp _ := by
    obtain ⟨⟨o, ho⟩, hu⟩ := hp
    refine ⟨⟨o, h.backs.2 ho⟩, fun b hbl hr => ?_⟩
    rw [h.liveAreas] at hbl
    exact hu b hbl (h.refersTo.1 hr)
  guarded c _ _ hg := by
    unfold Guarded at hg ⊢
    simp only [h.liveAreas, h.refersTo, h.areas]
    exact hg

end OnlySpace

/-- `kmem_obj_alloc` of an address space. -/
theorem Books.allocSpace (hb : x.Books) (h : x.objAlloc .vma = (some v, x')) :
    x.OnlySpace x' v ∧ v ∈ x'.live .vma ∧ v ∉ x.live .vma := by
  obtain ⟨hat, -, hfresh, hlive⟩ := objAlloc_some h
  have hvma : x'.live .vma = insert v (x.live .vma) := by rw [hlive, Function.update_self]
  refine ⟨⟨hat.areas, hat.kernVma, hat.pages, hat.words, hat.blocks, hat.free, ?_, fun w hw => ?_,
    fun w _ => by rw [hat.vmas], ?_, ?_⟩, ?_, hfresh⟩
  · rw [hlive]
    rfl
  · rw [hvma, Finset.mem_insert, or_iff_right hw]
  · rw [hat.vmas]
    exact hb.dead v hfresh
  · exact fun he => hfresh (he ▸ (mem_tabled.1 hb.kern).1)
  · rw [hvma]
    exact Finset.mem_insert_self v _

/-- `memset` and `kmem_obj_free` of an address space. -/
theorem Books.freeSpace (hv : v ∈ x.live .vma) (hne : v ≠ x.kernVma)
    (h : (x.setVma v .zero).objFree .vma v = some x') : x.OnlySpace x' v := by
  obtain ⟨z, hz, hat, -, hlive⟩ := objFree_some (x := x.setVma v .zero) (k := .vma) hv
  rw [h] at hz
  cases hz
  have hvma : x'.live .vma = (x.live .vma).erase v := by
    rw [hlive, Function.update_self]
    rfl
  refine ⟨hat.areas, hat.kernVma, hat.pages, hat.words, hat.blocks, hat.free, ?_, fun w hw => ?_,
    fun w hw => ?_, ?_, hne⟩
  · rw [hlive]
    rfl
  · rw [hvma, Finset.mem_erase, and_iff_right hw]
  · rw [hat.vmas]
    exact Function.update_of_ne (β := fun _ => Vma) hw _ _
  · rw [hat.vmas]
    exact Function.update_self (β := fun _ => Vma) _ _ _

/-- A new address space gets its page table. -/
structure OnlyTable (x x' : VmState A) (v pg : ℕ) : Prop where
  mem : x'.mem = x.mem
  areas : x'.areas = x.areas
  kernVma : x'.kernVma = x.kernVma
  vmas : ∀ w, w ≠ v → x'.vmas w = x.vmas w
  vma : x'.vmas v = ⟨some pg, x.kernVma, .nil, []⟩
  live : v ∈ x.live .vma
  blank : v ∉ x.tabled
  block : x.mem.blocks pg = some 0
  type : (x.mem.pages pg).pgtype = .buddyAllocator
  zero : ∀ j, x.mem.words pg j = 0
  apart : ∀ w ∈ x.tabled, pg ∉ x.mem.tables 2 (x.root w)

namespace OnlyTable

variable {pg : ℕ}

theorem live_eq (h : x.OnlyTable x' v pg) : x'.live = x.live := by
  unfold VmState.live
  rw [h.mem]

theorem tabled_iff (h : x.OnlyTable x' v pg) : w ∈ x'.tabled ↔ w = v ∨ w ∈ x.tabled := by
  rw [mem_tabled, mem_tabled, h.live_eq]
  by_cases hw : w = v
  · rw [hw, h.vma]
    exact ⟨fun _ => .inl rfl, fun _ => ⟨h.live, nofun⟩⟩
  · rw [h.vmas w hw, or_iff_right hw]

theorem root_self (h : x.OnlyTable x' v pg) : x'.root v = pg := by
  unfold VmState.root
  rw [h.vma]
  rfl

theorem root (h : x.OnlyTable x' v pg) (hw : w ∈ x.tabled) : x'.root w = x.root w := by
  unfold VmState.root
  rw [h.vmas w fun he => h.blank (he ▸ hw)]

theorem list_self (h : x.OnlyTable x' v pg) : x'.list v = [] := by
  unfold VmState.list
  rw [h.vma]

theorem list (h : x.OnlyTable x' v pg) (hw : w ∈ x.tabled) : x'.list w = x.list w := by
  unfold VmState.list
  rw [h.vmas w fun he => h.blank (he ▸ hw)]

theorem mem_list (h : x.OnlyTable x' v pg) (hw : w ∈ x'.tabled) (hbl : b ∈ x'.list w) :
    w ∈ x.tabled ∧ b ∈ x.list w := by
  rcases h.tabled_iff.1 hw with rfl | hw
  · rw [h.list_self] at hbl
    cases hbl
  · rw [h.list hw] at hbl
    exact ⟨hw, hbl⟩

theorem refersTo (h : x.OnlyTable x' v pg) : x'.RefersTo b p ↔ x.RefersTo b p := by
  unfold RefersTo
  rw [h.areas]

theorem tables_self (h : x.OnlyTable x' v pg) : x.mem.tables 2 pg = {pg} :=
  Radix.tables_of_empty (F := sv39Format L) fun j _ => h.zero j

/-- The page of the table is no page of another block. -/
theorem notMem_block (h : x.OnlyTable x' v pg) (hp : x.mem.blocks p = some o) (hne : p ≠ pg) :
    pg ∉ pagesOf p o := fun hq =>
  hne ((A.wellFormed x.mem.buddy).block_unique p o pg 0 pg hp h.block hq (self_mem_pagesOf pg 0))

theorem books (h : x.OnlyTable x' v pg) (hb : x.Books) : x'.Books where
  kern := by
    rw [h.kernVma, h.tabled_iff]
    exact .inr hb.kern
  dead w hw := by
    rw [h.live_eq] at hw
    rw [h.vmas w fun he => hw (he ▸ h.live)]
    exact hb.dead w hw
  listed w hw := by
    rcases h.tabled_iff.1 hw with rfl | hw
    · refine ⟨?_, ?_⟩
      · rw [h.list_self, h.vma]
        rfl
      · rw [h.list_self]
        exact List.nodup_nil
    · exact (hb.listed w hw).congr (h.vmas w fun he => h.blank (he ▸ hw))
  mem_live w hw b hbl := by
    obtain ⟨hw, hbl⟩ := h.mem_list hw hbl
    rw [h.live_eq]
    exact hb.mem_live w hw b hbl
  owner w hw u hu b hbw hbu := by
    obtain ⟨hw, hbw⟩ := h.mem_list hw hbw
    obtain ⟨hu, hbu⟩ := h.mem_list hu hbu
    exact hb.owner w hw u hu b hbw hbu
  spaces := by
    have hne : v ≠ x'.kernVma := by
      rw [h.kernVma]
      exact fun he => h.blank (he ▸ hb.kern)
    have hpin : ∀ w ∈ x.tabled, x'.pin w = x.pin w := fun w _ => by
      unfold VmState.pin
      rw [h.kernVma]
    have htab : x'.tabled = insert v x.tabled := by
      ext w
      rw [h.tabled_iff, Finset.mem_insert]
    rw [htab, h.mem]
    refine (hb.spaces.congr (fun w hw => h.root hw) hpin).insert h.blank ?_ ?_ ?_ ?_ ?_
    · rw [VmInv.pin_eq_noPin hne]
      exact fun _ => id
    · rw [h.root_self]
      exact fun j _ => h.zero j
    · rw [h.root_self]
      exact block_notMem_freePages h.block
    · intro w hw
      rw [h.root_self, h.root hw]
      exact h.apart w hw
    · intro p o hp
      rw [h.root_self]
      refine h.notMem_block hp.block ?_
      rintro rfl
      have ht := hp.type
      rw [h.type] at ht
      cases ht
  fits := by rw [h.live_eq, h.areas]; exact hb.fits
  refers b hbl p hr := by
    rw [h.live_eq] at hbl
    obtain ⟨o, h1, h2, h3⟩ := hb.refers b hbl p (h.refersTo.1 hr)
    exact ⟨o, by rw [h.mem]; exact h1, by rw [h.areas]; exact h2, by rw [h.areas]; exact h3⟩
  agree b hbl c hcl p hrb hrc := by
    rw [h.live_eq] at hbl hcl
    rw [h.areas]
    exact hb.agree b hbl c hcl p (h.refersTo.1 hrb) (h.refersTo.1 hrc)
  refCount p hp := by
    rw [h.mem] at hp ⊢
    rw [h.live_eq, backed_congr fun b _ => congrFun h.areas b]
    exact hb.refCount p hp

theorem changes (h : x.OnlyTable x' v pg) : x.Changes x' {v} {v} ∅ {pg} where
  kernVma := h.kernVma
  live w hw hwv := by
    rw [h.vmas w hwv, h.live_eq]
    exact ⟨hw, rfl⟩
  vmas w _ hwv := h.vmas w hwv
  areas b hbl _ := by
    rw [h.live_eq, h.areas]
    exact ⟨hbl, rfl⟩
  listed w hw b hbl _ := h.mem_list hw hbl
  loose p hp hne := by
    obtain ⟨o, h1, h2, h3, h4, h5⟩ := hp
    refine ⟨o, by rwa [h.mem], by rwa [h.mem], by rwa [h.mem], by rwa [h.mem], fun w hw q hq => ?_⟩
    rw [h.mem] at hq
    rcases h.tabled_iff.1 hw with rfl | hw
    · rw [h.root_self, h.tables_self, Finset.mem_singleton] at hq
      rw [hq]
      exact h.notMem_block h1 hne
    · rw [h.root hw] at hq
      exact h5 w hw q hq
  fresh p hp _ := by
    unfold Fresh at hp ⊢
    simp only [h.mem, h.live_eq, h.refersTo]
    exact hp
  guarded c _ _ hg := by
    unfold Guarded at hg ⊢
    simp only [h.live_eq, h.refersTo, h.areas]
    exact hg

end OnlyTable

/-- The table is made of a block that is held. -/
theorem OnlyTable.of_set {pg : ℕ} (hv : v ∈ x.live .vma) (hzero : x.vmas v = .zero)
    (hpg : x.Loose pg) (hblock : x.mem.blocks pg = some 0) (hwords : ∀ j, x.mem.words pg j = 0) :
    x.OnlyTable (x.setVma v ⟨some pg, x.kernVma, .nil, []⟩) v pg := by
  obtain ⟨o, h1, h2, -, -, h5⟩ := hpg
  refine ⟨rfl, rfl, rfl, fun w hw => Function.update_of_ne (β := fun _ => Vma) hw _ _,
    Function.update_self (β := fun _ => Vma) _ _ _, hv, fun ht => ?_, hblock, h2, hwords,
    fun w hw ht => h5 w hw pg ht (self_mem_pagesOf pg o)⟩
  rw [mem_tabled, hzero] at ht
  exact ht.2 rfl

/-! ### One page table -/

/-- `hw_mmap` of an area; when it succeeds, the area leaves the pinned entries alone. -/
theorem Books.enter (hb : x.Books) (hv : v ∈ x.tabled) (hf : area.Fits) {ret : ℤ}
    (h : x.hwMmapArea v area = .ok (ret, x')) :
    x.OnlyMemory x' ∅ ∧ (ret = 0 → ∀ w, area.Covers w → ¬ x.pin v w) := by
  unfold hwMmapArea at h
  rw [hwPgtable_root hv] at h
  dsimp only at h
  rcases hwMmap_area (hb.spaces.table v hv) (fun w hw => (hb.spaces.pinned v hv w hw).2)
    hf.va_aligned hf.pa_aligned hf.pa_lt hf.size_aligned hf.size_pos with
    ⟨-, hm⟩ | ⟨ret', m, hm, hstep, hor⟩
  · rw [hm] at h
    cases h
  · rw [hm] at h
    cases h
    refine ⟨.of_tableStep hb hv hstep, fun h0 w hc hpin => ?_⟩
    obtain ⟨hlt, hvalid⟩ := hb.spaces.pinned v hv w hpin
    rcases hor with ⟨-, hent⟩ | ⟨-, u, -, -, ⟨hret, -⟩ | ⟨hret, -⟩⟩
    · exact (hent.wrote w hlt hc).1 hvalid
    · rw [h0] at hret
      cases hret
    · rw [h0] at hret
      cases hret

/-- `hw_unmap` of an area that leaves the pinned entries alone. -/
theorem Books.clear (hb : x.Books) (hv : v ∈ x.tabled)
    (hout : ∀ w, area.Covers w → ¬ x.pin v w) (h : x.hwUnmapArea v area = .ok x') :
    x.OnlyMemory x' ∅ := by
  unfold hwUnmapArea at h
  rw [hwPgtable_root hv] at h
  dsimp only at h
  rcases hm : x.mem.hwUnmap (x.root v) area.va area.size with _ | m
  · rw [hm] at h
    cases h
  · rw [hm] at h
    cases h
    exact .of_tableStep hb hv (hwUnmap_some (hb.spaces.table v hv) hout hm).1

/-- `hw_unmap_all`. -/
theorem Books.clearAll (hb : x.Books) (hv : v ∈ x.tabled) (hne : v ≠ x.kernVma)
    (h : x.hwUnmapAll v = .ok x') : x.OnlyMemory x' ∅ := by
  have htab := hb.spaces.table v hv
  rw [VmInv.pin_eq_noPin hne] at htab
  obtain ⟨m, hm, hstep, -⟩ := free_spec 2 (x.root v) x.mem 0 htab
  have hm' : x.mem.hwUnmapAll (x.root v) = some m := hm
  unfold VmState.hwUnmapAll at h
  rw [hwPgtable_root hv] at h
  dsimp only at h
  rw [hm'] at h
  cases h
  rw [← VmInv.pin_eq_noPin hne] at hstep
  exact .of_tableStep hb hv hstep

/-! ### One reference -/

/-- The block of area `a` is `r` now, instead of what it was, and the descriptor of block `p` is
`pg`. -/
structure OnlyReference (x x' : VmState A) (a p : ℕ) (r : Option ℕ) (pg : Pageframe) : Prop where
  vmas : x'.vmas = x.vmas
  kernVma : x'.kernVma = x.kernVma
  live : x'.live = x.live
  words : x'.mem.words = x.mem.words
  blocks : x'.mem.blocks = x.mem.blocks
  free : x'.mem.freePages = x.mem.freePages
  page : x'.mem.pages p = pg
  pages : ∀ q, q ≠ p → x'.mem.pages q = x.mem.pages q
  area : x'.areas a = { x.areas a with pgfm := r }
  areas : ∀ b, b ≠ a → x'.areas b = x.areas b

theorem OnlyReference.of_set (x : VmState A) (a p : ℕ) (r : Option ℕ) (pg : Pageframe) :
    x.OnlyReference ((x.setPage p pg).setArea a { x.areas a with pgfm := r }) a p r pg where
  vmas := rfl
  kernVma := rfl
  live := rfl
  words := rfl
  blocks := rfl
  free := rfl
  page := Function.update_self (β := fun _ => Pageframe) _ _ _
  pages _ hq := Function.update_of_ne (β := fun _ => Pageframe) hq _ _
  area := Function.update_self (β := fun _ => VmaArea) _ _ _
  areas _ hb := Function.update_of_ne (β := fun _ => VmaArea) hb _ _

namespace OnlyReference

variable {r : Option ℕ} {pg : Pageframe} {q : ℕ}

theorem tabled (h : x.OnlyReference x' a p r pg) : x'.tabled = x.tabled := by
  unfold VmState.tabled
  rw [h.vmas, h.live]

theorem root (h : x.OnlyReference x' a p r pg) : x'.root = x.root := by
  unfold VmState.root
  rw [h.vmas]

theorem list (h : x.OnlyReference x' a p r pg) : x'.list = x.list := by
  unfold VmState.list
  rw [h.vmas]

theorem pin (h : x.OnlyReference x' a p r pg) : x'.pin = x.pin := by
  unfold VmState.pin
  rw [h.kernVma]

theorem tables (h : x.OnlyReference x' a p r pg) (t : ℕ) :
    x'.mem.tables 2 t = x.mem.tables 2 t :=
  Radix.tables_congr fun q _ => congrFun h.words q

theorem untouched (h : x.OnlyReference x' a p r pg) (hq : q ∉ x.mem.freePages) (hne : q ≠ p) :
    x.mem.Untouched x'.mem q :=
  ⟨by rw [h.words], by rw [h.blocks], h.pages q hne, by rwa [h.free]⟩

/-- Nothing but the block of area `a` changed. -/
theorem same (h : x.OnlyReference x' a p r pg) (b : ℕ) :
    (x'.areas b).vmarTyp = (x.areas b).vmarTyp ∧ (x'.areas b).pa = (x.areas b).pa ∧
    (x'.areas b).size = (x.areas b).size ∧ (x'.areas b).prot = (x.areas b).prot := by
  by_cases hba : b = a
  · rw [hba, h.area]
    exact ⟨rfl, rfl, rfl, rfl⟩
  · rw [h.areas b hba]
    exact ⟨rfl, rfl, rfl, rfl⟩

theorem refersTo_of_ne (h : x.OnlyReference x' a p r pg) (hba : b ≠ a) :
    x'.RefersTo b q ↔ x.RefersTo b q := by
  unfold RefersTo
  rw [h.areas b hba]

theorem fits (h : x.OnlyReference x' a p r pg) (hf : (x.areas b).Fits) : (x'.areas b).Fits := by
  by_cases hba : b = a
  · rw [hba] at hf ⊢
    rw [h.area]
    exact ⟨hf.va_aligned, hf.pa_aligned, hf.size_aligned, hf.size_pos, hf.pa_lt⟩
  · rwa [h.areas b hba]

/-- What is left to show: the block, and the areas that refer to blocks. -/
theorem books (h : x.OnlyReference x' a p r pg) (hb : x.Books) (hp : x.mem.BacksAreas p o)
    (hpg : pg.pgtype = .vmaArea → x'.mem.BacksAreas p o)
    (hrefers : ∀ b ∈ x.live .vmaArea, ∀ q, x'.RefersTo b q → ∃ k, x'.Backed b q k)
    (hagree : ∀ b ∈ x.live .vmaArea, ∀ c ∈ x.live .vmaArea, ∀ q, x'.RefersTo b q →
      x'.RefersTo c q → (x.areas b).prot = (x.areas c).prot)
    (hcount : ∀ q, (x'.mem.pages q).pgtype = .vmaArea →
      (x'.mem.pages q).refCount = (x'.backed (x.live .vmaArea) q).card) : x'.Books where
  kern := by rw [h.kernVma, h.tabled]; exact hb.kern
  dead := by rw [h.live, h.vmas]; exact hb.dead
  listed := by
    rw [h.tabled]
    exact fun v hv => (hb.listed v hv).congr (by rw [h.vmas])
  mem_live := by rw [h.tabled, h.list, h.live]; exact hb.mem_live
  owner := by rw [h.tabled, h.list]; exact hb.owner
  spaces := by
    rw [h.tabled, h.root, h.pin]
    refine hb.spaces.of_untouched (fun v hv q hq => ?_) fun q hq => ?_
    · refine h.untouched (hb.tables_notMem_free hv q hq) ?_
      rintro rfl
      exact hb.spaces.backs_notMem_tables hv hp hq
    · by_cases hqp : q = p
      · subst hqp
        rw [h.page] at hq
        exact ⟨o, hpg hq, fun v hv s hs => hb.spaces.block_apart v hv q o hp s hs⟩
      · rw [h.pages q hqp] at hq
        obtain ⟨k, hk⟩ := hb.spaces.backs q hq
        exact ⟨k, hk.untouched (h.untouched (block_notMem_freePages hk.block) hqp),
          fun v hv s hs => hb.spaces.block_apart v hv q k hk s hs⟩
  fits b hbl := by
    rw [h.live] at hbl
    exact h.fits (hb.fits b hbl)
  refers := by rw [h.live]; exact hrefers
  agree b hbl c hcl q hrb hrc := by
    rw [h.live] at hbl hcl
    rw [(h.same b).2.2.2, (h.same c).2.2.2]
    exact hagree b hbl c hcl q hrb hrc
  refCount := by rw [h.live]; exact hcount

theorem loose (h : x.OnlyReference x' a p r pg) (hp : x.mem.BacksAreas p o) (hq : x.Loose q) :
    x'.Loose q := by
  obtain ⟨k, h1, h2, h3, h4, h5⟩ := hq
  have hne : q ≠ p := by
    rintro rfl
    rw [hp.type] at h2
    cases h2
  refine ⟨k, by rwa [h.blocks], by rwa [h.pages q hne], by rwa [h.pages q hne],
    by rwa [h.pages q hne], fun v hv s hs => ?_⟩
  rw [h.tabled] at hv
  rw [h.root, h.tables] at hs
  exact h5 v hv s hs

theorem backs (h : x.OnlyReference x' a p r pg) (hp : x.mem.BacksAreas p o)
    (ht : pg.pgtype = .vmaArea) (ho : pg.buddyOrder = (x.mem.pages p).buddyOrder)
    (hf : pg.buddyFlags = (x.mem.pages p).buddyFlags) : x'.mem.BacksAreas p o where
  type := by rw [h.page, ht]
  block := by rw [h.blocks]; exact hp.block
  order := by rw [h.page, ho, hp.order]
  head := by rw [h.page, hf, hp.head]

theorem backed (h : x.OnlyReference x' a p r pg) (hq : q ≠ p) (hbk : x.Backed b q o) :
    x'.Backed b q o := by
  obtain ⟨-, h2, h3, -⟩ := h.same b
  refine ⟨hbk.backs.untouched (h.untouched (block_notMem_freePages hbk.backs.block) hq), ?_, ?_⟩
  · rw [h2, hbk.pa]
  · rw [h3, hbk.size]

/-- The block `p` backs the areas that it has backed before. -/
theorem backed_self (h : x.OnlyReference x' a p r pg) (hp : x'.mem.BacksAreas p o)
    (hbk : x.Backed b p o) : x'.Backed b p o := by
  obtain ⟨-, h2, h3, -⟩ := h.same b
  exact ⟨hp, h2.trans hbk.pa, h3.trans hbk.size⟩

/-- What the others rely on: the blocks that nobody refers to, and the areas like `a`. -/
theorem changes (h : x.OnlyReference x' a p r pg) (hp : x.mem.BacksAreas p o)
    (hfresh : ∀ q, x.Fresh q → q ∉ P → q ≠ p ∧ ∀ b ∈ x.live .vmaArea, ¬ x'.RefersTo b q)
    (hg : ∀ c, c ≠ a → x.Guarded c → x'.Guarded c) : x.Changes x' ∅ ∅ {a} P where
  kernVma := h.kernVma
  live v hv _ := by
    rw [h.live, h.vmas]
    exact ⟨hv, rfl⟩
  vmas v _ _ := by rw [h.vmas]
  areas b hbl hba := by
    rw [h.live]
    exact ⟨hbl, h.areas b hba⟩
  listed v hv b hbl _ := by
    rw [h.tabled] at hv
    rw [h.list] at hbl
    exact ⟨hv, hbl⟩
  loose q hq _ := h.loose hp hq
  fresh q hq hqP := by
    obtain ⟨hqp, hu⟩ := hfresh q hq hqP
    obtain ⟨⟨k, hk⟩, -⟩ := hq
    refine ⟨⟨k, hk.untouched (h.untouched (block_notMem_freePages hk.block) hqp)⟩, ?_⟩
    rw [h.live]
    exact hu
  guarded c _ hca hc := hg c hca hc

/-- The areas that refer to a block when `a` has come to refer to `p`. -/
theorem refersTo_some (h : x.OnlyReference x' a p (some p) pg) (ht : (x.areas a).vmarTyp = .memory)
    (hnone : (x.areas a).pgfm = none) :
    x'.RefersTo b q ↔ b = a ∧ q = p ∨ x.RefersTo b q := by
  by_cases hba : b = a
  · have hnot : ¬ x.RefersTo a q := fun hr => by
      have := hr.2
      rw [hnone] at this
      cases this
    rw [hba, or_iff_left hnot, and_iff_right rfl]
    unfold RefersTo
    rw [h.area]
    exact ⟨fun hr => (Option.some.inj hr.2).symm, fun he => ⟨ht, by rw [he]⟩⟩
  · rw [h.refersTo_of_ne hba, or_iff_right fun hc => hba hc.1]

/-- The areas that refer to a block when `a` does not refer to one any more. -/
theorem refersTo_none (h : x.OnlyReference x' a p none pg) :
    x'.RefersTo b q ↔ b ≠ a ∧ x.RefersTo b q := by
  by_cases hba : b = a
  · have hnot : ¬ x'.RefersTo a q := fun hr => by
      have := hr.2
      rw [h.area] at this
      cases this
    rw [hba]
    exact ⟨fun hr => absurd hr hnot, fun hr => absurd rfl hr.1⟩
  · rw [h.refersTo_of_ne hba, and_iff_right hba]

/-- One more reference to `p`, and none to another block. -/
theorem refCount_some (h : x.OnlyReference x' a p (some p) pg) (hb : x.Books)
    (ha : a ∈ x.live .vmaArea) (ht : (x.areas a).vmarTyp = .memory)
    (hnone : (x.areas a).pgfm = none) (hp : x.mem.BacksAreas p o)
    (hpg : pg.refCount = (x.mem.pages p).refCount + 1) (hq : (x'.mem.pages q).pgtype = .vmaArea) :
    (x'.mem.pages q).refCount = (x'.backed (x.live .vmaArea) q).card := by
  by_cases hqp : q = p
  · subst hqp
    have hset : x'.backed (x.live .vmaArea) q = insert a (x.backed (x.live .vmaArea) q) := by
      ext b
      unfold VmState.backed
      rw [Finset.mem_insert, Finset.mem_filter, Finset.mem_filter]
      change b ∈ _ ∧ x'.RefersTo b q ↔ b = a ∨ b ∈ _ ∧ x.RefersTo b q
      rw [h.refersTo_some ht hnone]
      constructor
      · rintro ⟨hbl, ⟨rfl, -⟩ | hr⟩
        · exact .inl rfl
        · exact .inr ⟨hbl, hr⟩
      · rintro (rfl | ⟨hbl, hr⟩)
        · exact ⟨ha, .inl ⟨rfl, rfl⟩⟩
        · exact ⟨hbl, .inr hr⟩
    have hna : a ∉ x.backed (x.live .vmaArea) q := by
      intro hm
      have := (Finset.mem_filter.1 hm).2.2
      rw [hnone] at this
      cases this
    rw [h.page, hset, Finset.card_insert_of_notMem hna, hpg, hb.refCount q hp.type]
    push_cast
    rfl
  · have hset : x'.backed (x.live .vmaArea) q = x.backed (x.live .vmaArea) q := by
      refine Finset.filter_congr fun b _ => ?_
      change x'.RefersTo b q ↔ x.RefersTo b q
      rw [h.refersTo_some ht hnone, or_iff_right fun hc => hqp hc.2]
    rw [h.pages q hqp] at hq ⊢
    rw [hset]
    exact hb.refCount q hq

/-- One reference to `p` less, and none to another block. -/
theorem refCount_none (h : x.OnlyReference x' a p none pg) (hb : x.Books)
    (ha : a ∈ x.live .vmaArea) (hr : x.RefersTo a p) (hp : x.mem.BacksAreas p o)
    (hpg : pg.refCount = (x.mem.pages p).refCount - 1) (hq : (x'.mem.pages q).pgtype = .vmaArea) :
    (x'.mem.pages q).refCount = (x'.backed (x.live .vmaArea) q).card := by
  have hset : x'.backed (x.live .vmaArea) q = (x.backed (x.live .vmaArea) q).erase a := by
    ext b
    unfold VmState.backed
    rw [Finset.mem_erase, Finset.mem_filter, Finset.mem_filter]
    change b ∈ _ ∧ x'.RefersTo b q ↔ b ≠ a ∧ b ∈ _ ∧ x.RefersTo b q
    rw [h.refersTo_none]
    tauto
  rw [hset]
  by_cases hqp : q = p
  · subst hqp
    have hmem : a ∈ x.backed (x.live .vmaArea) q := Finset.mem_filter.2 ⟨ha, hr⟩
    have hpos := Finset.card_pos.2 ⟨a, hmem⟩
    rw [h.page, hpg, hb.refCount q hp.type, Finset.card_erase_of_mem hmem]
    omega
  · have hna : a ∉ x.backed (x.live .vmaArea) q := by
      intro hm
      have hrq := (Finset.mem_filter.1 hm).2
      exact hqp (Option.some.inj (hrq.2.symm.trans hr.2))
    rw [h.pages q hqp] at hq ⊢
    rw [Finset.erase_eq_of_notMem hna]
    exact hb.refCount q hq

end OnlyReference

/-- Area `a` refers to block `p` from now on. -/
theorem Books.refer (hb : x.Books) (ha : a ∈ x.live .vmaArea)
    (ht : (x.areas a).vmarTyp = .memory) (hnone : (x.areas a).pgfm = none) (hbk : x.Backed a p o)
    (hprot : ∀ b ∈ x.live .vmaArea, x.RefersTo b p → (x.areas b).prot = (x.areas a).prot) :
    (x.referenced a p).Books ∧ x.Changes (x.referenced a p) ∅ ∅ {a} {p} ∧
      (x.referenced a p).RefersTo a p := by
  have h : x.OnlyReference (x.referenced a p) a p (some p)
      { x.mem.pages p with refCount := (x.mem.pages p).refCount + 1 } := .of_set x a p _ _
  generalize x.referenced a p = x' at h
  have hrefers : ∀ {b q}, x'.RefersTo b q ↔ b = a ∧ q = p ∨ x.RefersTo b q :=
    h.refersTo_some ht hnone
  have hbacks := h.backs hbk.backs hbk.backs.type rfl rfl
  refine ⟨h.books hb hbk.backs (fun _ => hbacks) (fun b hbl q hr => ?_)
    (fun b hbl c hcl q hrb hrc => ?_) fun q => h.refCount_some hb ha ht hnone hbk.backs rfl,
    h.changes hbk.backs (fun q hq hqp => ⟨hqp, fun b hbl hr => ?_⟩) fun c hca hg htc hpc => ?_,
    hrefers.2 (.inl ⟨rfl, rfl⟩)⟩
  · rcases hrefers.1 hr with ⟨rfl, rfl⟩ | hr
    · exact ⟨o, h.backed_self hbacks hbk⟩
    · obtain ⟨k, hk⟩ := hb.refers b hbl q hr
      by_cases hqp : q = p
      · subst hqp
        rw [hk.backs.order_unique hbk.backs] at hk
        exact ⟨o, h.backed_self hbacks hk⟩
      · exact ⟨k, h.backed hqp hk⟩
  · rcases hrefers.1 hrb with ⟨rfl, rfl⟩ | hrb
    · rcases hrefers.1 hrc with ⟨rfl, -⟩ | hrc
      · rfl
      · exact (hprot c hcl hrc).symm
    · rcases hrefers.1 hrc with ⟨rfl, rfl⟩ | hrc
      · exact hprot b hbl hrb
      · exact hb.agree b hbl c hcl q hrb hrc
  · rcases hrefers.1 hr with ⟨-, rfl⟩ | hr
    · exact hqp rfl
    · exact hq.2 b hbl hr
  · rw [h.areas c hca] at htc hpc ⊢
    obtain ⟨b, hbl, q, hr, h1⟩ := hg htc hpc
    obtain ⟨-, h2, h3, h4⟩ := h.same b
    refine ⟨b, by rw [h.live]; exact hbl, q, hrefers.2 (.inr hr), ?_⟩
    rwa [h2, h3, h4]

/-- A block with more references than one has another area. -/
theorem Books.exists_other (hb : x.Books) (ha : a ∈ x.live .vmaArea) (hr : x.RefersTo a p)
    (h1 : (x.mem.pages p).refCount ≠ 1) : ∃ b ∈ x.live .vmaArea, b ≠ a ∧ x.RefersTo b p := by
  obtain ⟨o, ho⟩ := hb.refers a ha p hr
  have hcount := hb.refCount p ho.backs.type
  have hmem : a ∈ x.backed (x.live .vmaArea) p := Finset.mem_filter.2 ⟨ha, hr⟩
  have hpos := Finset.card_pos.2 ⟨a, hmem⟩
  obtain ⟨b, hbm, hba⟩ :=
    Finset.exists_mem_ne (by omega : 1 < (x.backed (x.live .vmaArea) p).card) a
  obtain ⟨h2, h3⟩ := Finset.mem_filter.1 hbm
  exact ⟨b, h2, hba, h3⟩

/-- Another area takes the place of `a` unless this was the last reference. -/
theorem OnlyReference.guarded {pg : Pageframe} {c : ℕ} (h : x.OnlyReference x' a p none pg)
    (hb : x.Books) (ha : a ∈ x.live .vmaArea) (hr : x.RefersTo a p)
    (hlast : (x.mem.pages p).refCount = 1 → (x.areas a).prot % 2 = 0) (hg : x.Guarded c) :
    x'.Guarded c := by
  obtain ⟨h1, h2, h3, h4⟩ := h.same c
  intro htc hpc
  rw [h1] at htc
  rw [h4] at hpc
  rw [h2, h3, h4]
  obtain ⟨b, hbl, q, hrb, h5, h6, h7⟩ := hg htc hpc
  by_cases hba : b = a
  · subst hba
    have hqp : q = p := Option.some.inj (hrb.2.symm.trans hr.2)
    subst hqp
    have hne : (x.mem.pages q).refCount ≠ 1 := by
      intro hone
      have := hlast hone
      omega
    obtain ⟨d, hdl, hdb, hrd⟩ := hb.exists_other hbl hrb hne
    obtain ⟨o, hbk⟩ := hb.refers b hbl q hrb
    obtain ⟨k, hk⟩ := hb.refers d hdl q hrd
    rw [hk.backs.order_unique hbk.backs] at hk
    obtain ⟨-, h8, h9, h10⟩ := h.same d
    refine ⟨d, by rw [h.live]; exact hdl, q, h.refersTo_none.2 ⟨hdb, hrd⟩, ?_, ?_, ?_⟩
    · rw [h8, hk.pa, ← hbk.pa, h5]
    · rw [h9, hk.size, ← hbk.size, h6]
    · rw [h10, hb.agree d hdl b hbl q hrd hrb, h7]
  · obtain ⟨-, h8, h9, h10⟩ := h.same b
    refine ⟨b, by rw [h.live]; exact hbl, q, h.refersTo_none.2 ⟨hba, hrb⟩, ?_⟩
    rw [h8, h9, h10]
    exact ⟨h5, h6, h7⟩

/-- Area `a`, which hangs nowhere any more, refers to block `p` no longer.  When this was the last
reference to the block, then the entries of the area must not be valid. -/
theorem Books.drop (hb : x.Books) (ha : x.Apart a) (hr : x.RefersTo a p) {pg : Pageframe}
    (h : x.OnlyReference x' a p none pg) (hcount : pg.refCount = (x.mem.pages p).refCount - 1)
    (horder : pg.buddyOrder = (x.mem.pages p).buddyOrder)
    (hflags : pg.buddyFlags = (x.mem.pages p).buddyFlags)
    (htype : (x.mem.pages p).refCount ≠ 1 ∧ pg.pgtype = .vmaArea ∨
      (x.mem.pages p).refCount = 1 ∧ pg.pgtype = .buddyAllocator)
    (hlast : (x.mem.pages p).refCount = 1 → (x.areas a).prot % 2 = 0) :
    x'.Books ∧ x.Changes x' ∅ ∅ {a} ∅ ∧ x'.Apart a ∧ (∀ q, ¬ x'.RefersTo a q) ∧
      (x.Guarded a → x'.Guarded a) ∧ (pg.pgtype = .buddyAllocator → x'.Loose p) := by
  obtain ⟨o, hbk⟩ := hb.refers a ha.1 p hr
  refine ⟨h.books hb hbk.backs (fun ht => h.backs hbk.backs ht horder hflags)
    (fun b hbl q hrb => ?_) (fun b hbl c hcl q hrb hrc => ?_)
    fun q => h.refCount_none hb ha.1 hr hbk.backs hcount,
    h.changes hbk.backs (fun q hq _ => ⟨?_, fun b hbl hrb => ?_⟩)
      fun c _ => h.guarded hb ha.1 hr hlast,
    ⟨?_, ?_⟩, fun q hq => (h.refersTo_none.1 hq).1 rfl, h.guarded hb ha.1 hr hlast, fun ht => ?_⟩
  · obtain ⟨hba, hrb⟩ := h.refersTo_none.1 hrb
    obtain ⟨k, hk⟩ := hb.refers b hbl q hrb
    by_cases hqp : q = p
    · subst hqp
      rcases htype with ⟨-, ht⟩ | ⟨hone, -⟩
      · exact ⟨k, h.backed_self (h.backs hk.backs ht horder hflags) hk⟩
      · -- two areas cannot share the last reference
        exfalso
        have hcard := hb.refCount q hk.backs.type
        rw [hone] at hcard
        have hle : (x.backed (x.live .vmaArea) q).card ≤ 1 := by omega
        refine hba (Finset.card_le_one.1 hle b ?_ a ?_)
        · exact Finset.mem_filter.2 ⟨hbl, hrb⟩
        · exact Finset.mem_filter.2 ⟨ha.1, hr⟩
    · exact ⟨k, h.backed hqp hk⟩
  · exact hb.agree b hbl c hcl q (h.refersTo_none.1 hrb).2 (h.refersTo_none.1 hrc).2
  · rintro rfl
    exact hq.2 a ha.1 hr
  · exact hq.2 b hbl (h.refersTo_none.1 hrb).2
  · rw [h.live]
    exact ha.1
  · rw [h.tabled, h.list]
    exact ha.2
  · refine ⟨o, by rw [h.blocks]; exact hbk.backs.block, by rw [h.page, ht],
      by rw [h.page, horder, hbk.backs.order], by rw [h.page, hflags, hbk.backs.head],
      fun v hv q hq => ?_⟩
    rw [h.tabled] at hv
    rw [h.root, h.tables] at hq
    exact hb.spaces.block_apart v hv p o hbk.backs q hq

end VmState

end AcoOs
