/-
Address spaces whose areas are in order.

The comparisons of `vma_area_ops.c` and `vm.c` look at one node at a time.  When no area
wraps around the end of the address space and the list is sorted (`Sorted`), they direct a
search, so the first node that compares as equal decides the matter: a new area is refused
exactly when it overlaps one that is there, and an area is found by exactly its range.
-/
import AcoOs.VmRun

namespace AcoOs

open Memory

variable {L : VmLayout} {A : VmEnv L} {area area' : VmaArea}

/-! ### The comparisons -/

/-- The areas have an address in common. -/
def VmaArea.Overlaps (area area' : VmaArea) : Prop :=
  area.va < area'.va + area'.size ∧ area'.va < area.va + area.size

instance (area area' : VmaArea) : Decidable (area.Overlaps area') :=
  inferInstanceAs (Decidable (_ ∧ _))

/-- The area ends before the end of the address space. -/
def VmaArea.Plain (area : VmaArea) : Prop := area.va + area.size < 2 ^ 64

theorem VmaArea.Plain.vaEnd (h : area.Plain) : area.vaEnd = area.va + area.size :=
  Nat.mod_eq_of_lt h

/-- The area lies in the part of the address space that Sv39 tells apart. -/
def VmaArea.Low (area : VmaArea) : Prop := area.va + area.size ≤ 2 ^ 39

theorem VmaArea.Low.plain (h : area.Low) : area.Plain := h.trans_lt (by norm_num)

theorem VmaArea.Low.position_eq (h : area.Low) (hva : area.va % pageSize = 0)
    (hpos : 0 < area.size) : position 2 area.va = area.va / pageSize := by
  unfold Low at h
  unfold position
  rw [show (512 : ℕ) ^ (2 + 1) = 2 ^ 27 by norm_num]
  refine Nat.mod_eq_of_lt ?_
  simp only [pageSize, pageOffset] at *
  omega

/-- The positions of an area below `2 ^ 39` do not wrap in the page table. -/
theorem VmaArea.Low.fits (h : area.Low) (hva : area.va % pageSize = 0) (hpos : 0 < area.size) :
    position 2 area.va + area.size / pageSize ≤ tableSpan := by
  rw [h.position_eq hva hpos, show tableSpan = 2 ^ 27 by norm_num [tableSpan]]
  unfold Low at h
  simp only [pageSize, pageOffset] at *
  omega

theorem VmaArea.Low.covers_iff {w : ℕ} (h : area.Low) (hva : area.va % pageSize = 0)
    (hsize : area.size % pageSize = 0) (hpos : 0 < area.size) :
    area.Covers w ↔ area.va ≤ w * pageSize ∧ w * pageSize < area.va + area.size := by
  rw [VmaArea.covers_iff (h.fits hva hpos) hsize hpos, h.position_eq hva hpos]
  simp only [pageSize, pageOffset] at *
  omega

/-- Areas that do not overlap have no position in common. -/
theorem VmaArea.Low.apart {w : ℕ} (h : area.Low) (h' : area'.Low) (hva : area.va % pageSize = 0)
    (hsize : area.size % pageSize = 0) (hpos : 0 < area.size) (hva' : area'.va % pageSize = 0)
    (hsize' : area'.size % pageSize = 0) (hpos' : 0 < area'.size) (hno : ¬ area.Overlaps area')
    (hc : area.Covers w) : ¬ area'.Covers w := by
  rw [h.covers_iff hva hsize hpos] at hc
  rw [h'.covers_iff hva' hsize' hpos']
  unfold Overlaps at hno
  omega

/-- An area below `2 ^ 39` has no more pages than an `int` counts. -/
theorem VmaArea.Low.pages (h : area.Low) : 0 ≤ toInt32 (area.size / pageSize) := by
  have hlt : area.size / pageSize < 2 ^ 31 := by
    unfold Low at h
    simp only [pageSize, pageOffset] at *
    omega
  rw [toInt32_of_lt hlt]
  exact Int.natCast_nonneg _

theorem insertCompare_pos :
    0 < insertCompareVmarea area area' ↔ area'.vaEnd ≤ area.va := by
  unfold insertCompareVmarea
  dsimp only
  split_ifs <;> simp [*]

theorem insertCompare_neg :
    insertCompareVmarea area area' < 0 ↔ area.vaEnd ≤ area'.va ∧ ¬ area'.vaEnd ≤ area.va := by
  unfold insertCompareVmarea
  dsimp only
  split_ifs <;> simp [*]

/-- Areas compare as equal when they overlap. -/
theorem insertCompare_eq_zero (h : area.Plain) (h' : area'.Plain) :
    insertCompareVmarea area area' = 0 ↔ area.Overlaps area' := by
  have hpos : 0 < insertCompareVmarea area area' ↔ _ := insertCompare_pos
  have hneg : insertCompareVmarea area area' < 0 ↔ _ := insertCompare_neg
  rw [h.vaEnd, h'.vaEnd] at hneg
  rw [h'.vaEnd] at hpos
  unfold VmaArea.Overlaps
  omega

namespace VmState

variable {x x' : VmState A} {v a b : ℕ}

theorem findCompare_pos {va size : ℕ} (hend : area.vaEnd ≤ va)
    (hne : ¬ (va = area.va ∧ size = area.size)) : 0 < findCompare va size area := by
  unfold findCompare
  rw [if_neg hne, if_pos hend]
  decide

theorem findCompare_neg {va size : ℕ} (hend : va < area.vaEnd)
    (hne : ¬ (va = area.va ∧ size = area.size)) : findCompare va size area < 0 := by
  unfold findCompare
  rw [if_neg hne, if_neg (by omega)]
  decide

/-- The areas are in order and none wraps. -/
structure Sorted (x : VmState A) (v : ℕ) : Prop where
  plain : ∀ a ∈ x.list v, (x.areas a).Plain
  pairwise : (x.list v).Pairwise fun a b => (x.areas a).va + (x.areas a).size ≤ (x.areas b).va

namespace Sorted

theorem nil (h : x.list v = []) : x.Sorted v where
  plain a ha := by
    rw [h] at ha
    cases ha
  pairwise := by
    rw [h]
    exact .nil

/-- What keeps the areas of the list in their order keeps it sorted. -/
theorem mono (h : x.Sorted v) (hlist : (x'.list v).Sublist (x.list v))
    (hareas : ∀ a ∈ x'.list v, x'.areas a = x.areas a) : x'.Sorted v where
  plain a ha := by
    rw [hareas a ha]
    exact h.plain a (hlist.subset ha)
  pairwise := by
    refine (h.pairwise.sublist hlist).imp_of_mem fun {a b} ha hb hab => ?_
    rw [hareas a ha, hareas b hb]
    exact hab

theorem sameSpace (h : x.Sorted v) (hs : x.SameSpace x' v) : x'.Sorted v :=
  h.mono (by rw [hs.list]) fun a ha => hs.areas a (by rwa [hs.list] at ha)

theorem removed (h : x.Sorted v) (hinv : x.VmInv) (hv : v ∈ x.live .vma) (hr : x.Removed x' v a) :
    x'.Sorted v := by
  refine h.mono ?_ fun b hb => hr.areas b ?_
  · rw [hr.list]
    exact List.erase_sublist
  · rintro rfl
    rw [hr.list] at hb
    exact (hinv.listed v hv).nodup.not_mem_erase hb

/-- The list directs the search for the place of a new area. -/
theorem directs (h : x.Sorted v) (hp : area.Plain) :
    SearchTree.Directs (fun node => insertCompareVmarea area (x.areas node)) (x.list v) := by
  refine h.pairwise.imp_of_mem fun {a b} ha hb hab => ?_
  have h1 := (h.plain a ha).vaEnd
  have h2 := (h.plain b hb).vaEnd
  have h3 := hp.vaEnd
  rw [insertCompare_neg, insertCompare_neg, insertCompare_pos, insertCompare_pos]
  omega

/-- A new area is refused exactly when it overlaps one of the list. -/
theorem inTheWay_eq_none (h : x.Sorted v) (hl : x.Listed v) (hp : area.Plain) :
    x.inTheWay v area = none ↔ ∀ b ∈ x.list v, ¬ area.Overlaps (x.areas b) := by
  constructor
  · intro hway b hb
    obtain ⟨l, r, h1, -, h3, h4⟩ := SearchTree.add_none_of_directs (a := b) hway
      (by rw [hl.toList]; exact h.directs hp)
    rw [← insertCompare_eq_zero hp (h.plain b hb)]
    rw [← hl.toList, h1, List.mem_append] at hb
    rcases hb with hb | hb
    · have := h3 b hb
      omega
    · have := h4 b hb
      omega
  · intro hno
    by_contra hway
    obtain ⟨b, hb⟩ := Option.ne_none_iff_exists'.1 hway
    obtain ⟨h1, h2⟩ := SearchTree.find_some hb
    rw [hl.toList] at h1
    exact hno b h1 ((insertCompare_eq_zero hp (h.plain b h1)).1 h2)

/-- The new area stands behind the smaller ones and before the larger ones. -/
theorem added (h : x.Sorted v) (hinv : x.VmInv) (hv : v ∈ x.live .vma) (ha : x.Added x' v a area)
    (hp : area.Plain) : x'.Sorted v := by
  obtain ⟨l, r, hl, hl', hadd⟩ := ha.split
  have hlist := hinv.listed v hv
  obtain ⟨l₁, r₁, h1, h2, h3, h4⟩ := SearchTree.add_none_of_directs (a := a) ha.inTheWay
    (by rw [hlist.toList]; exact h.directs hp)
  have hfresh : a ∉ x.list v := fun hm => ha.fresh (hinv.mem_live hv hm)
  have hsplit : l = l₁ ∧ r = r₁ := by
    rw [hlist.toList] at h1
    rw [hadd] at h2
    rw [hl] at hfresh
    rw [h1] at hl
    have hal : a ∉ l := fun hm => hfresh (List.mem_append_left r hm)
    have hal₁ : a ∉ l₁ := fun hm => hfresh (by rw [← hl]; exact List.mem_append_left r₁ hm)
    have hlen : l.length = l₁.length := by
      have h5 := congrArg (List.idxOf a) h2
      rwa [List.idxOf_append_of_notMem hal, List.idxOf_append_of_notMem hal₁,
        List.idxOf_cons_self, List.idxOf_cons_self, Nat.add_zero, Nat.add_zero] at h5
    exact List.append_inj hl.symm hlen
  obtain ⟨rfl, rfl⟩ := hsplit
  have harea : (x'.areas a).va = area.va ∧ (x'.areas a).size = area.size := by
    rw [ha.made]
    exact ⟨rfl, rfl⟩
  have hplain : (x'.areas a).Plain := by
    unfold VmaArea.Plain
    rw [harea.1, harea.2]
    exact hp
  have hold : ∀ b ∈ x.list v, x'.areas b = x.areas b := fun b hb =>
    ha.areas_live (hinv.mem_live hv hb)
  have hlow : ∀ b ∈ l, (x'.areas b).va + (x'.areas b).size ≤ (x'.areas a).va := by
    intro b hb
    have hbl : b ∈ x.list v := by rw [hl]; exact List.mem_append_left r hb
    have := insertCompare_pos.1 (h3 b hb)
    rwa [(h.plain b hbl).vaEnd, ← hold b hbl, ← harea.1] at this
  have hhigh : ∀ b ∈ r, (x'.areas a).va + (x'.areas a).size ≤ (x'.areas b).va := by
    intro b hb
    have hbl : b ∈ x.list v := by rw [hl]; exact List.mem_append_right l hb
    have := (insertCompare_neg.1 (h4 b hb)).1
    rwa [hp.vaEnd, ← hold b hbl, ← harea.1, ← harea.2] at this
  have hpair : (l ++ r).Pairwise fun a b =>
      (x'.areas a).va + (x'.areas a).size ≤ (x'.areas b).va := by
    rw [← hl]
    refine h.pairwise.imp_of_mem fun {b c} hb hc hbc => ?_
    rw [hold b hb, hold c hc]
    exact hbc
  rw [List.pairwise_append] at hpair
  refine ⟨fun b hb => ?_, ?_⟩
  · rcases ha.mem_list.1 hb with rfl | hb
    · exact hplain
    · rw [hold b hb]
      exact h.plain b hb
  · rw [hl', List.pairwise_append, List.pairwise_cons]
    refine ⟨hpair.1, ⟨hhigh, hpair.2.1⟩, fun b hb c hc => ?_⟩
    rcases List.mem_cons.1 hc with rfl | hc
    · exact hlow b hb
    · exact hpair.2.2 b hb c hc

/-- A search for the range of an area finds that area. -/
theorem findArea_self (h : x.Sorted v) (hl : x.Listed v) (ha : a ∈ x.list v)
    (hpos : 0 < (x.areas a).size) :
    x.findArea v (x.areas a).va (x.areas a).size = some a := by
  obtain ⟨l, r, hsplit⟩ := List.append_of_mem ha
  have hpair := h.pairwise
  rw [hsplit, List.pairwise_append, List.pairwise_cons] at hpair
  refine SearchTree.find_eq_of_split (hl.toList.trans hsplit) (findCompare_eq_zero.2 ⟨rfl, rfl⟩)
    (fun b hb => ?_) fun b hb => ?_
  · have hbl : b ∈ x.list v := by rw [hsplit]; exact List.mem_append_left _ hb
    have hba := hpair.2.2 b hb a List.mem_cons_self
    have hend := (h.plain b hbl).vaEnd
    refine findCompare_pos (show (x.areas b).vaEnd ≤ _ by omega) fun he => ?_
    omega
  · have hbl : b ∈ x.list v := by
      rw [hsplit]
      exact List.mem_append_right l (List.mem_cons_of_mem a hb)
    have hab := hpair.2.1.1 b hb
    have hend := (h.plain b hbl).vaEnd
    refine findCompare_neg (show _ < (x.areas b).vaEnd by omega) fun he => ?_
    omega

/-- No two areas of the list have the same range. -/
theorem eq_of_range (h : x.Sorted v) (hl : x.Listed v) (ha : a ∈ x.list v) (hb : b ∈ x.list v)
    (hpos : 0 < (x.areas a).size) (hva : (x.areas a).va = (x.areas b).va)
    (hsize : (x.areas a).size = (x.areas b).size) : a = b := by
  have h1 := h.findArea_self hl ha hpos
  rw [hva, hsize, h.findArea_self hl hb (by omega)] at h1
  exact (Option.some.inj h1).symm

end Sorted

/-! ### `vm_check` -/

theorem vmCheckLoop_eq_zero {l : List ℕ} {bef size : ℕ} (h : x.VmInv) (hv : v ∈ x.live .vma)
    (hs : x.Sorted v) (hp : ∀ a ∈ x.list v, (x.areas a).prot &&& vmProtV ≠ 0)
    (hsub : ∀ a ∈ l, a ∈ x.list v)
    (hpair : l.Pairwise fun a b => (x.areas a).va + (x.areas a).size ≤ (x.areas b).va)
    (hbef : bef ≠ 2 ^ 64 - 1 → bef + size < 2 ^ 64 ∧ ∀ a ∈ l, bef + size ≤ (x.areas a).va) :
    x.vmCheckLoop v bef size l = 0 := by
  induction l generalizing bef size with
  | nil => rfl
  | cons a l ih =>
    have ha := hsub a List.mem_cons_self
    have hok := h.list_ok hv ha
    rw [List.pairwise_cons] at hpair
    unfold vmCheckLoop
    dsimp only
    rw [if_neg (not_not.2 ⟨hok.va_aligned, hok.pa_aligned, hok.size_aligned, hok.size_pos⟩),
      if_neg fun hc => hc.2 (hok.unbacked hc.1), if_neg (hp a ha), if_neg, if_neg]
    · refine ih (fun b hb => hsub b (List.mem_cons_of_mem a hb)) hpair.2 fun _ => ?_
      exact ⟨hs.plain a ha, hpair.1⟩
    · rw [not_not]
      exact hs.findArea_self (h.listed v hv) ha hok.size_pos
    · rintro ⟨hne, hlt⟩
      obtain ⟨h1, h2⟩ := hbef hne
      rw [Nat.mod_eq_of_lt h1] at hlt
      exact hlt (h2 a List.mem_cons_self)

/-- `vm_check` has nothing to object to in a sorted address space with valid areas. -/
theorem vmCheck_eq_zero (h : x.VmInv) (hv : v ∈ x.live .vma) (hs : x.Sorted v)
    (hp : ∀ a ∈ x.list v, (x.areas a).prot &&& vmProtV ≠ 0) : x.vmCheck v = 0 := by
  unfold vmCheck
  rw [if_neg (h.ne_zero hv), if_neg (by rw [h.hwPgtable v hv]; exact Option.some_ne_none _),
    if_neg (not_not.2 (h.kernelVma v hv))]
  exact vmCheckLoop_eq_zero h hv hs hp (fun _ ha => ha) hs.pairwise fun hne => absurd rfl hne

/-! ### The areas of the kernel -/

theorem kernelText_low (L : VmLayout) : (kernelText L).Low := by
  have h1 := L.vaEnd_le
  have h2 := L.seperate_lt
  have hle : L.seperate * pageSize ≤ L.pageNums * pageSize := Nat.mul_le_mul_right _ h2.le
  exact (Nat.add_le_add_left hle _).trans h1

theorem kernelData_low (L : VmLayout) : (kernelData L).Low := by
  have h1 := L.vaEnd_le
  have h2 := L.seperate_lt
  show L.vaStart + L.seperate * pageSize + (L.pageNums - L.seperate) * pageSize ≤ 2 ^ 39
  rwa [Nat.add_assoc, ← Nat.add_mul, Nat.add_sub_of_le h2.le]

theorem kernelText_plain (L : VmLayout) : (kernelText L).Plain := (kernelText_low L).plain

theorem kernelData_plain (L : VmLayout) : (kernelData L).Plain := (kernelData_low L).plain

theorem Booted.low {text data : ℕ} (h : x.Booted text data) :
    ∀ a ∈ x.list x.kernVma, (x.areas a).Low := by
  intro a ha
  rw [h.list, List.mem_cons, List.mem_singleton] at ha
  rcases ha with rfl | rfl
  · rw [h.text]
    exact kernelText_low L
  · rw [h.data]
    exact kernelData_low L

theorem Booted.sorted {text data : ℕ} (h : x.Booted text data) : x.Sorted x.kernVma where
  plain a ha := (h.low a ha).plain
  pairwise := by
    rw [h.list, List.pairwise_pair, h.text, h.data]
    exact le_rfl

end VmState

end AcoOs
