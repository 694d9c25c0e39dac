/-
A machine on which the calls succeed.

With many free pages no call fails for the lack of one.  `vmMachine` is such a machine of
16 GiB.  Its pages come from the buddy allocator, its object caches always have an object left,
and its kernel is mapped by `hw_mmap` itself; `vmMachine_boots` says that `vm_module_init`
succeeds there, and `vmaAlloc_succeeds` that there are address spaces besides the one of the
kernel.
-/
import AcoOs.AvlBalance
import AcoOs.VmOrder
import AcoOs.PageTableRoom

namespace AcoOs

open Memory

/-! ### The machine -/

/-- An allocator with something else in its state. -/
def PageAllocator.withState {c : Layout} (A : PageAllocator c) (σ : Type) : PageAllocator c where
  State := A.State × σ
  pageSet s := A.pageSet s.1
  alloc s k := ((A.alloc s.1 k).1, (A.alloc s.1 k).2, s.2)
  free s p := (A.free s.1 p).map fun b => (b, s.2)
  wellFormed s := A.wellFormed s.1
  alloc_apply s k := A.alloc_apply s.1 k
  free_apply s p k h := by
    obtain ⟨b, hb, happ⟩ := A.free_apply s.1 p k h
    exact ⟨(b, s.2), by rw [hb]; rfl, happ⟩
  free_none s p h := by
    rw [A.free_none s.1 p h]
    rfl

/-- The object of a cache that is handed out next. -/
def nextObject (S : Finset ℕ) : ℕ := S.sup id + 1

theorem nextObject_notMem (S : Finset ℕ) : nextObject S ∉ S := by
  intro h
  have := Finset.le_sup (f := id) h
  exact absurd this (Nat.not_succ_le_self _)

/-- Object caches that always have an object left, and a tree that is rebuilt when a node is
erased. -/
def VmEnv.ofAllocator {L : VmLayout} (A : PageAllocator L.toLayout) : VmEnv L where
  toPageAllocator := A.withState (VmCache → Finset ℕ)
  objAlloc s k := (some (nextObject (s.2 k)),
    s.1, Function.update s.2 k (insert (nextObject (s.2 k)) (s.2 k)))
  objFree s k a :=
    if a ∈ s.2 k then some (s.1, Function.update s.2 k ((s.2 k).erase a)) else none
  live s := s.2
  postInsert t _ := t
  nodeErase t a := .ofList (t.toList.erase a)
  objAlloc_pages _ _ := ⟨subset_rfl, rfl⟩
  objAlloc_none _ _ h := (nomatch h)
  objAlloc_some s k a h := by
    cases h
    exact ⟨Nat.succ_ne_zero _, nextObject_notMem _, rfl⟩
  objFree_live s k a h := ⟨_, if_pos h, rfl, rfl⟩
  alloc_live _ _ := rfl
  free_live s p s' h := by
    obtain ⟨b, -, rfl⟩ := Option.map_eq_some_iff.1 h
    rfl
  toList_postInsert _ _ := rfl
  toList_nodeErase _ _ := SearchTree.toList_ofList _

/-- The pages and the objects of the environment suffice as long as a page is free. -/
structure VmEnv.Ample {L : VmLayout} (A : VmEnv L) : Prop where
  pages : A.toPageAllocator.Ample
  objAlloc : ∀ s k, (A.objAlloc s k).1 ≠ none
  objAlloc_pages : ∀ s k, A.freePages (A.objAlloc s k).2 = A.freePages s

theorem VmEnv.ofAllocator_ample {L : VmLayout} {A : PageAllocator L.toLayout} (hA : A.Ample) :
    (VmEnv.ofAllocator A).Ample where
  pages s hs := hA s.1 hs
  objAlloc _ _ := nofun
  objAlloc_pages _ _ := rfl

/-- What is left when two areas have been allocated. -/
def VmEnv.twoAreas {L : VmLayout} (A : VmEnv L) (s : A.State) : A.State :=
  (A.objAlloc (A.objAlloc s .vmaArea).2 .vmaArea).2

/-- There are objects for two areas. -/
def VmEnv.TwoAreas {L : VmLayout} (A : VmEnv L) (s : A.State) : Prop :=
  (A.objAlloc s .vmaArea).1 ≠ none ∧ (A.objAlloc (A.objAlloc s .vmaArea).2 .vmaArea).1 ≠ none

/-- The same environment with the trees of `avlmini.c`. -/
def VmEnv.withAvl {L : VmLayout} (A : VmEnv L) : VmEnv L :=
  { A with
    postInsert := fun t a => SearchTree.avlNodePostInsert a t
    nodeErase := fun t a => SearchTree.avlNodeErase a t
    toList_postInsert := fun _ _ => SearchTree.toList_avlNodePostInsert
    toList_nodeErase := fun _ _ => SearchTree.toList_avlNodeErase }

theorem VmEnv.Ample.withAvl {L : VmLayout} {A : VmEnv L} (hA : A.Ample) : A.withAvl.Ample where
  pages := hA.pages
  objAlloc := hA.objAlloc
  objAlloc_pages := hA.objAlloc_pages

/-! ### Calls that succeed -/

namespace VmState

variable {L : VmLayout} {A : VmEnv L} {x x' s : VmState A} {v a text data : ℕ} {area : VmaArea}

theorem objAlloc_succeeds (hA : A.Ample) (x : VmState A) (k : VmCache) :
    ∃ a y, x.objAlloc k = (some a, y) ∧ y.mem.freePages = x.mem.freePages := by
  obtain ⟨a, ha⟩ := Option.ne_none_iff_exists'.1 (hA.objAlloc x.mem.buddy k)
  exact ⟨a, (x.objAlloc k).2, Prod.ext ha rfl, hA.objAlloc_pages x.mem.buddy k⟩

/-- An area that is in nothing's way is mapped. -/
theorem vmMmapInternal_succeeds (hA : A.Ample) (h : x.VmInv) (hv : v ∈ x.live .vma)
    (hr : x.Request area) (hpages : 0 ≤ toInt32 (area.size / pageSize))
    (hway : x.inTheWay v area = none)
    (hno : ∀ w < tableSpan, area.Covers w → ¬ x.mem.ValidAt 2 (x.root v) w)
    (hfree : 2 ^ 19 ≤ x.mem.freePages.ncard) : ∃ a x',
    x.vmMmapInternal v area.va area.pa area.prot area.size area.vmarTyp true = .ok (0, x') ∧
    x.Mapped x' v a area ∧ x.mem.freePages.ncard < x'.mem.freePages.ncard + 2 ^ 19 := by
  obtain ⟨b, y, hy, hfy⟩ := objAlloc_succeeds hA x .vmaArea
  rcases vmMmapInternal_cases h hv hr with ⟨e, -, hst⟩ | ⟨ret, x', -, hwhy, -⟩ |
    ⟨a, x', he, -, -, hm⟩
  · rcases hst with ⟨-, hneg⟩ | ⟨-, -, w, hw, hc, hvalid⟩
    · omega
    · exact absurd hvalid (hno w hw hc)
  · rw [hy] at hwhy
    rcases hwhy with ⟨-, hn⟩ | ⟨-, ⟨-, hn⟩ | ⟨-, -, hex, -⟩⟩
    · cases hn
    · exact absurd hway hn
    · exact absurd hex (Memory.not_exhausts hA.pages (by rwa [hfy]))
  · refine ⟨a, x', he, hm, ?_⟩
    have := ncard_le_of_conserve (F := y.mem.freePages) (T := x.mem.tables 2 (x.root v)) fun q => by
      rw [← show (x.objAlloc .vmaArea).2 = y from congrArg Prod.snd hy]
      have hc := hm.conserve q
      exact hc
    rwa [hfy] at this

/-- A page is taken for an area, and the area is mapped to it. -/
theorem claim_succeeds (hA : A.Ample) (h : x.VmInv) (hv : v ∈ x.live .vma) {va : ℕ}
    (hva : va % pageSize = 0) (hlt : va < 2 ^ 64) (prot : ℕ)
    (hway : ∀ p, x.inTheWay v (memoryArea L va p 0 prot) = none)
    (hno : ∀ p, ∀ w < tableSpan, (memoryArea L va p 0 prot).Covers w →
      ¬ x.mem.ValidAt 2 (x.root v) w)
    (hfree : 2 ^ 19 < x.mem.freePages.ncard) : ∃ p y z a x',
      x.bkpAllocZero 0 = (some p, y) ∧ y.claimBlock p 0 = .ok z ∧ x.Claimed z p 0 ∧
      z.vmMmapInternal v va (L.pg2pa p) prot (1 <<< (0 : ℤ).toNat * pageSize) .memory true =
        .ok (0, x') ∧ z.Mapped x' v a (memoryArea L va p 0 prot) ∧
      x.mem.freePages.ncard ≤ x'.mem.freePages.ncard + 2 ^ 19 := by
  obtain ⟨p, m, hm, hcount⟩ := Memory.bkpAllocZero_succeeds hA.pages (x := x.mem) (by omega)
  have hb : x.bkpAllocZero 0 = (some p, x.withMem m) := by
    unfold VmState.bkpAllocZero
    rw [hm]
    rfl
  obtain ⟨z, hz, hc⟩ := claimBlock_spec h.spaces hb
  have hzfree : z.mem.freePages = m.freePages := by
    unfold claimBlock at hz
    split at hz
    · cases hz
      rfl
    · cases hz
  have hvz : v ∈ z.live .vma := by rw [hc.live]; exact hv
  have hnoz : ∀ w < tableSpan, (memoryArea L va p 0 prot).Covers w →
      ¬ z.mem.ValidAt 2 (z.root v) w := by
    rintro w hw hcov ⟨e, he, hve⟩
    exact hno p w hw hcov ⟨e, (hc.entry h.spaces hv hw).symm.trans he, hve⟩
  obtain ⟨a, x', he, hmap, hn⟩ := vmMmapInternal_succeeds hA (hc.inv h) hvz
    (hc.request hva hlt) (show 0 ≤ toInt32 (1 * 4096 / 4096) by decide)
    (by rw [hc.inTheWay]; exact hway p) hnoz (by rw [hzfree]; omega)
  rw [hzfree] at hn
  exact ⟨p, x.withMem m, z, a, x', hb, hz, hc, he, hmap, by omega⟩

/-- `vm_mmap` of one page that is in nothing's way. -/
theorem vmMmap_succeeds (hA : A.Ample) (h : x.Inv) (hv : v ∈ x.live .vma) {va : ℕ}
    (hva : va % pageSize = 0) (hlt : va < 2 ^ 64) (prot : ℕ)
    (hway : ∀ p, x.inTheWay v (memoryArea L va p 0 prot) = none)
    (hno : ∀ p, ∀ w < tableSpan, (memoryArea L va p 0 prot).Covers w →
      ¬ x.mem.ValidAt 2 (x.root v) w)
    (hfree : 2 ^ 19 < x.mem.freePages.ncard) : ∃ p a x', x.vmMmap v va 0 prot = .ok (0, x') ∧
      x.Added x' v a (memoryArea L va p 0 prot) ∧
      x.mem.freePages.ncard ≤ x'.mem.freePages.ncard + 2 ^ 19 := by
  obtain ⟨p, y, z, a, x', hb, hz, hc, he, hmap, hn⟩ :=
    claim_succeeds hA h.vm hv hva hlt prot hway hno hfree
  have hkern := (h.kernel v hv).sameSpace (hc.sameSpace h.vm.spaces hv)
  refine ⟨p, a, x', ?_, hc.added h.vm hv (hc.request hva hlt) hmap rfl rfl (hway p)
    fun w hcov => hkern.outside hmap hcov, hn⟩
  have hargs : ¬ (v = 0 ∨ va % pageSize ≠ 0 ∨ ¬ ((0 : ℤ) ≤ 0 ∧ (0 : ℤ) < L.maxOrder)) := by
    have := L.maxOrder_pos
    rintro (h0 | h0 | h0)
    · exact h.vm.ne_zero hv h0
    · exact h0 hva
    · omega
  unfold vmMmap
  rw [if_neg hargs, hb]
  dsimp only
  rw [hz]
  dsimp only
  rw [he]
  rfl

/-- `vm_mmap` of one page where an area is in the way. -/
theorem vmMmap_occupied (hA : A.Ample) (h : x.VmInv) (hv : v ∈ x.live .vma) {va : ℕ}
    (hva : va % pageSize = 0) (hlt : va < 2 ^ 64) (prot : ℕ)
    (hway : ∀ p, x.inTheWay v (memoryArea L va p 0 prot) ≠ none)
    (hfree : 0 < x.mem.freePages.ncard) : ∃ p x', (x.bkpAllocZero 0).1 = some p ∧
      x.vmMmap v va 0 prot = .ok (-eexist, x') := by
  obtain ⟨p, m, hm, -⟩ := Memory.bkpAllocZero_succeeds hA.pages (x := x.mem) hfree
  have hb : (x.bkpAllocZero 0).1 = some p := by
    unfold VmState.bkpAllocZero
    rw [hm]
  have horder : (0 : ℤ) ≤ 0 ∧ (0 : ℤ) < L.maxOrder := by
    have := L.maxOrder_pos
    omega
  rcases vmMmap_cases h hv hva hlt horder prot with ⟨y, hn, -⟩ | ⟨q, z, hq, -, -, hend⟩
  · rw [hb] at hn
    cases hn
  rcases hend with ⟨e, -, ⟨-, hneg⟩ | ⟨-, hno, -⟩⟩ | ⟨ret, y, he, hwhy, -⟩ | ⟨a, y, -, hno, -⟩
  · exact absurd hneg (show ¬ toInt32 (1 * 4096 / 4096) < 0 by decide)
  · exact absurd hno (hway q)
  · rcases hwhy with ⟨-, hn⟩ | ⟨rfl, -⟩ | ⟨-, hno⟩
    · exact absurd hn (hA.objAlloc z.mem.buddy .vmaArea)
    · exact ⟨p, y, hb, he⟩
    · exact absurd hno (hway q)
  · exact absurd hno (hway q)

theorem kernelText_apart (L : VmLayout) : ¬ (kernelData L).Overlaps (kernelText L) := by
  rintro ⟨h1, -⟩
  exact absurd h1 (lt_irrefl _)

/-- There is room in address space `v` for a copy of the area. -/
structure Room (x : VmState A) (v : ℕ) (area : VmaArea) : Prop where
  low : area.Low
  page : area.Writable → area.size = pageSize
  apart : ∀ c ∈ x.list v, ¬ area.Overlaps (x.areas c)
  empty : ∀ w < tableSpan, area.Covers w → ¬ x.mem.ValidAt 2 (x.root v) w

/-- The loop of `vma_dup` copies an area for which there is room. -/
theorem dupArea_succeeds (hA : A.Ample) (h : x.VmInv) (hv : v ∈ x.live .vma) (hs : x.Sorted v)
    (hok : AreaOk x.mem area) (hr : x.Room v area) (hfree : 2 ^ 19 < x.mem.freePages.ncard) :
    ∃ x', x.dupArea v area = .ok (true, x') ∧
      x.mem.freePages.ncard ≤ x'.mem.freePages.ncard + 2 ^ 19 := by
  have hway : ∀ area' : VmaArea, area'.va = area.va → area'.size = area.size →
      x.inTheWay v area' = none := by
    intro area' hva hsize
    refine (hs.inTheWay_eq_none (h.listed v hv) ?_).2 fun c hc => ?_
    · unfold VmaArea.Plain
      rw [hva, hsize]
      exact hr.low.plain
    · unfold VmaArea.Overlaps
      rw [hva, hsize]
      exact hr.apart c hc
  by_cases hw : area.Writable
  · -- a page of its own
    have hsize := hr.page hw
    have hcov : ∀ p w, (memoryArea L area.va p 0 area.prot).Covers w → area.Covers w := by
      intro p w hc
      unfold VmaArea.Covers at hc ⊢
      rwa [hsize]
    obtain ⟨p, y, z, a, x', hb, hz, -, he, -, hn⟩ := claim_succeeds hA h hv hok.va_aligned
      hok.va_lt area.prot (fun p => hway _ rfl (by rw [hsize]; rfl))
      (fun p w hwt hc => hr.empty w hwt (hcov p w hc)) hfree
    obtain ⟨o, ho, heq⟩ := dupArea_writable hok hw v
    have ho0 : o = 0 := by
      rw [hsize] at ho
      have h1 : 2 ^ 0 = 2 ^ o := Nat.eq_of_mul_eq_mul_right (show 0 < pageSize by decide) ho
      exact (Nat.pow_right_injective le_rfl h1).symm
    rw [ho0, Nat.cast_zero] at heq
    refine ⟨x', ?_, hn⟩
    rw [heq]
    unfold copyBlock
    rw [hb]
    dsimp only
    rw [hz]
    dsimp only
    unfold copyArea
    rw [hw.1, hsize, show (pageSize : ℕ) = 1 <<< (0 : ℤ).toNat * pageSize from rfl, he]
    rfl
  · -- what backs the area is shared
    have hreq : x.Request { area with pgfm := none } := request_of_areaOk hok
    obtain ⟨a, x', he, -, hn⟩ := vmMmapInternal_succeeds hA h hv hreq hr.low.pages
      (hway _ rfl rfl) (fun w hwt hc => hr.empty w hwt hc) hfree.le
    refine ⟨x', ?_, hn.le⟩
    rw [dupArea_shared hok hw]
    unfold copyArea
    rw [show x.vmMmapInternal v area.va area.pa area.prot area.size area.vmarTyp true = _ from he]
    rfl

/-- The loop of `vma_dup` copies areas that leave room for each other. -/
theorem dupAreas_succeeds (hA : A.Ample) {l : List ℕ} (h : x.VmInv) (hv : v ∈ x.live .vma)
    (hs : x.Sorted v) (hl : ∀ b ∈ l, b ∈ x.live .vmaArea) (hroom : ∀ b ∈ l, x.Room v (x.areas b))
    (hpair : l.Pairwise fun b c => ¬ (x.areas c).Overlaps (x.areas b))
    (hfree : l.length * 2 ^ 19 < x.mem.freePages.ncard) :
    ∃ x', x.dupAreas v l = .ok (true, x') ∧
      x.mem.freePages.ncard ≤ x'.mem.freePages.ncard + l.length * 2 ^ 19 := by
  induction l generalizing x with
  | nil => exact ⟨x, rfl, Nat.le_add_right _ _⟩
  | cons b l ih =>
    have hlen : (b :: l).length * 2 ^ 19 = l.length * 2 ^ 19 + 2 ^ 19 := Nat.succ_mul _ _
    rw [hlen] at hfree ⊢
    have hbl := hl b List.mem_cons_self
    have hokb := h.areaOk b hbl
    have hrb := hroom b List.mem_cons_self
    rw [List.pairwise_cons] at hpair
    obtain ⟨y, hy, hny⟩ := dupArea_succeeds hA h hv hs hokb hrb
      ((Nat.le_add_left _ _).trans_lt hfree)
    have hout := dupArea_outcome h hv hokb
    rw [hy] at hout
    cases hout with
    | @copied _ a area hc ha _ =>
      have hlx : ∀ c ∈ l, c ∈ x.live .vmaArea := fun c hcl => hl c (List.mem_cons_of_mem b hcl)
      have hareas : ∀ c ∈ l, y.areas c = x.areas c := fun c hcl => ha.areas_live (hlx c hcl)
      have hlow : area.Low := by
        unfold VmaArea.Low
        rw [hc.va, hc.size]
        exact hrb.low
      -- the copy is not where the others are
      have hroom' : ∀ c ∈ l, y.Room v (y.areas c) := by
        intro c hcl
        have hrc := hroom c (List.mem_cons_of_mem b hcl)
        have hokc := h.areaOk c (hlx c hcl)
        have hno := hpair.1 c hcl
        rw [hareas c hcl]
        refine ⟨hrc.low, hrc.page, fun d hd => ?_, ?_⟩
        · rcases ha.mem_list.1 hd with rfl | hd
          · rw [ha.made]
            unfold VmaArea.Overlaps at hno ⊢
            dsimp only
            rwa [hc.va, hc.size]
          · rw [ha.areas_live (h.mem_live hv hd)]
            exact hrc.apart d hd
        · rintro w hw hcov ⟨e, he, hve⟩
          rcases (ha.entry_valid hw hve).1 he with hx | ⟨hcb, -⟩
          · exact hrc.empty w hw hcov ⟨e, hx, hve⟩
          · exact hrc.low.apart hrb.low hokc.va_aligned hokc.size_aligned hokc.size_pos
              hokb.va_aligned hokb.size_aligned hokb.size_pos hno hcov (hc.covers.1 hcb)
      obtain ⟨z, hz, hnz⟩ := ih ha.inv (by rw [ha.frame.liveVma]; exact hv)
        (hs.added h hv ha hlow.plain) (fun c hcl => ha.grown.live (hlx c hcl)) hroom'
        (hpair.2.imp_of_mem fun {c d} hcl hdl hcd => by rwa [hareas c hcl, hareas d hdl])
        (Nat.lt_of_add_lt_add_right (hfree.trans_le hny))
      refine ⟨z, ?_, hny.trans ?_⟩
      · rw [dupAreas, hy]
        exact hz
      · rw [← Nat.add_assoc]
        exact Nat.add_le_add_right hnz _

/-- `vma_dup` copies an address space of low areas without large blocks that may be written. -/
theorem vmaDup_succeeds (hA : A.Ample) (h : s.VmInv) {u : ℕ} (hu : u ∈ s.live .vma)
    (hs : s.Sorted u) (hlow : ∀ b ∈ s.list u, (s.areas b).Low)
    (hpage : ∀ b ∈ s.list u, (s.areas b).Writable → (s.areas b).size = pageSize)
    (hfree : (s.list u).length * 2 ^ 19 + 1 < s.mem.freePages.ncard) :
    ∃ v x', s.vmaDup u = .ok (v, x') ∧ v ≠ 0 ∧
      s.mem.freePages.ncard ≤ x'.mem.freePages.ncard + ((s.list u).length * 2 ^ 19 + 1) := by
  have hargs : ¬ (u = 0 ∨ (s.vmas u).kernelVma ≠ s.kernVma ∨ (s.vmas u).hwPgtable = none) := by
    rw [h.hwPgtable u hu]
    rintro (h0 | h0 | h0)
    · exact h.ne_zero hu h0
    · exact h0 (h.kernelVma u hu)
    · cases h0
  obtain ⟨v, y, hy, hfy⟩ := objAlloc_succeeds hA s .vma
  obtain ⟨hat, hv0, hfresh, hlivey⟩ := objAlloc_some hy
  have hzero : y.vmas v = .zero := by
    rw [hat.vmas]
    exact h.dead v hfresh
  obtain ⟨pg, m, hm, hcount⟩ := Memory.bkpAllocZero_succeeds hA.pages (x := y.mem)
    (by rw [hfy]; omega)
  have hb : y.bkpAllocZero 0 = (some pg, y.withMem m) := by
    unfold VmState.bkpAllocZero
    rw [hm]
    rfl
  have hopen := opened_spec h hy hb
  have hlist : ((y.withMem m).vmas u).lList = s.list u := by
    show (y.vmas u).lList = _
    rw [hat.vmas]
    rfl
  have hmem : ((y.withMem m).setVma v ⟨some pg, (y.withMem m).kernVma, .nil, []⟩).mem = m := rfl
  generalize hs' : (y.withMem m).setVma v ⟨some pg, (y.withMem m).kernVma, .nil, []⟩ = s'
    at hopen hmem
  have hcard : s'.mem.freePages.ncard + 1 = s.mem.freePages.ncard := by
    rw [hmem, hcount, hfy]
  have hroom : ∀ b ∈ s.list u, s'.Room v (s'.areas b) := by
    intro b hbl
    rw [hopen.areas]
    refine ⟨hlow b hbl, hpage b hbl, fun c hc => ?_, ?_⟩
    · rw [hopen.list] at hc
      cases hc
    · rintro w hw - ⟨e, he, hve⟩
      exact hopen.entry w hw e hve he
  have hpair : (s.list u).Pairwise fun b c => ¬ (s'.areas c).Overlaps (s'.areas b) := by
    rw [hopen.areas]
    refine hs.pairwise.imp fun {b c} hbc hover => ?_
    exact absurd hover.1 (Nat.not_lt.2 hbc)
  obtain ⟨z, hz, hn⟩ := dupAreas_succeeds hA hopen.inv (hopen.live_iff.2 (.inl rfl))
    (.nil hopen.list) (fun b hbl => by rw [hopen.liveAreas]; exact h.mem_live hu hbl) hroom hpair
    (by rw [← hcard] at hfree; exact Nat.lt_of_add_lt_add_right hfree)
  have hle := Nat.add_le_add_right hn 1
  rw [hcard, Nat.add_assoc] at hle
  refine ⟨v, z, ?_, hv0, hle⟩
  unfold vmaDup
  rw [if_neg hargs, hy]
  dsimp only
  rw [if_pos (by rw [hzero]; exact ⟨rfl, rfl⟩), hb]
  dsimp only
  rw [hlist, hs', hz]

/-- An address space that `vma_dup` has made was opened and filled with copies. -/
theorem vmaDup_opened (h : x.Inv) (hu : u ∈ x.live .vma) (hdup : x.vmaDup u = .ok (v, x'))
    (hv : v ≠ 0) : ∃ s pg, x.Opened s v pg ∧ Dups v s (x.list u) true x' := by
  have hend := vmaDup_end h.vm h.referenced hu
  rw [hdup] at hend
  cases hend with
  | nothing => exact absurd rfl hv
  | undone => exact absurd rfl hv
  | done ho hds => exact ⟨_, _, ho, hds⟩

/-- Right after boot `vma_alloc` makes an address space. -/
theorem vmaAlloc_succeeds (hA : A.Ample) (h : s.Booted text data)
    (hfree : 2 ^ 20 + 1 < s.mem.freePages.ncard) : ∃ v x', s.vmaAlloc = .ok (v, x') ∧ v ≠ 0 ∧
      s.mem.freePages.ncard ≤ x'.mem.freePages.ncard + (2 ^ 20 + 1) := by
  have hlen : (s.list s.kernVma).length * 2 ^ 19 = 2 ^ 20 := by
    rw [h.list, List.length_cons, List.length_singleton]
    norm_num
  have hpage : ∀ b ∈ s.list s.kernVma, (s.areas b).Writable → (s.areas b).size = pageSize := by
    intro b hb hw
    have ht := hw.1
    rw [h.list, List.mem_cons, List.mem_singleton] at hb
    rcases hb with rfl | rfl
    · rw [h.text] at ht
      cases ht
    · rw [h.data] at ht
      cases ht
  have hdup := vmaDup_succeeds hA h.vm h.vm.kern_live h.sorted h.low hpage (by rwa [hlen])
  rwa [hlen] at hdup

/-! ### Booting -/

/-- `hw_mmap` enters one of the two areas of the kernel. -/
theorem hwMmap_succeeds (hA : A.toPageAllocator.Ample) {m : Memory A.toPageAllocator} {t : ℕ}
    (hinv : TableInv (fun _ => False) m 2 t 0) (hr : x.Request area)
    (hpages : 0 ≤ toInt32 (area.size / pageSize))
    (hno : ∀ w < tableSpan, area.Covers w → ¬ m.ValidAt 2 t w)
    (hfree : 2 ^ 19 ≤ m.freePages.ncard) : ∃ m',
    m.hwMmap t area.va area.pa area.prot area.size = some (0, m') ∧
    TableStep (fun _ => False) m m' 2 t 0 ∧ Entered m m' t area ∧
    m.freePages.ncard < m'.freePages.ncard + 2 ^ 19 := by
  rcases hwMmap_area hinv (fun _ => False.elim) hr.va_aligned hr.pa_aligned hr.pa_lt
    hr.size_aligned hr.size_pos with ⟨hneg, -⟩ | ⟨ret, m', heq, hstep, ⟨rfl, hent⟩ |
      ⟨-, w, hw, hc, ⟨-, -, hex⟩ | ⟨-, hvalid⟩⟩⟩
  · omega
  · exact ⟨m', heq, hstep, hent, ncard_le_of_conserve hstep.conserve⟩
  · exact absurd hex (Memory.not_exhausts hA hfree)
  · exact absurd hvalid (hno w hw hc)

/-- The boot code can map the kernel. -/
theorem bootTable (hA : A.toPageAllocator.Ample) (x : VmState A)
    (ht : ∀ p, (x.mem.pages p).pgtype ≠ .vmaArea)
    (hfree : 2 ^ 20 < x.mem.freePages.ncard) : ∃ pgtable m, A.Evolves x.mem.buddy m.buddy ∧
      (∀ p, (m.pages p).pgtype ≠ .vmaArea) ∧ TableInv (kernelPos L) m 2 pgtable 0 ∧
      (∀ w < tableSpan, ∀ e, PteValid e → (m.leaf 2 pgtable w = some e ↔
        (kernelText L).Covers w ∧ (kernelText L).pte w = e ∨
        (kernelData L).Covers w ∧ (kernelData L).pte w = e)) ∧
      x.mem.freePages.ncard < m.freePages.ncard + (2 ^ 20 + 1) := by
  obtain ⟨pgtable, m₁, hm₁, hinv₁, hzero, hn₁⟩ := Memory.table_succeeds hA (x := x.mem)
    (by omega)
  obtain ⟨-, hz⟩ := bkpAllocZero_some hm₁
  have hnone : ∀ w < tableSpan, ¬ m₁.ValidAt 2 pgtable w := by
    rintro w hw ⟨e, he, hve⟩
    rw [hzero w hw e he] at hve
    exact not_pteValid_zero hve
  obtain ⟨m₂, -, hstep₂, hent₂, hn₂⟩ := hwMmap_succeeds hA hinv₁ (kernelText_request x)
    (kernelText_low L).pages (fun w hw _ => hnone w hw) (by omega)
  -- both areas are entered where nothing was
  have hiff : ∀ {m m' : Memory A.toPageAllocator} {area : VmaArea}, Entered m m' pgtable area →
      ∀ w < tableSpan, ∀ e, PteValid e → (m'.leaf 2 pgtable w = some e ↔
        m.leaf 2 pgtable w = some e ∨ area.Covers w ∧ area.pte w = e) := by
    intro m m' area hent w hw e he
    by_cases hc : area.Covers w
    · obtain ⟨h1, h2⟩ := hent.wrote w hw hc
      rw [h2, Option.some.injEq]
      exact ⟨fun h => .inr ⟨hc, h⟩, fun h => h.elim (fun h => absurd ⟨e, h, he⟩ h1) And.right⟩
    · rw [or_iff_left fun h => hc h.1]
      rcases hent.rest w hw hc with h1 | ⟨h1, h2⟩
      · rw [h1]
      · rw [h1, h2]
        refine ⟨fun h => ?_, nofun⟩
        cases h
        exact absurd he not_pteValid_zero
  have htext : ∀ w < tableSpan, ∀ e, PteValid e → (m₂.leaf 2 pgtable w = some e ↔
      (kernelText L).Covers w ∧ (kernelText L).pte w = e) := by
    intro w hw e he
    rw [hiff hent₂ w hw e he, or_iff_right fun h => hnone w hw ⟨e, h, he⟩]
  obtain ⟨m₃, -, hstep₃, hent₃, hn₃⟩ := hwMmap_succeeds hA hstep₂.inv (kernelData_request x)
    (kernelData_low L).pages (fun w hw hc ⟨e, he, hve⟩ => by
      have hct := ((htext w hw e hve).1 he).1
      rw [kernelText_covers] at hct
      rw [kernelData_covers] at hc
      omega) (by omega)
  have hinv₃ := hstep₃.inv
  have hev := (bkpAllocZero_evolves hm₁).trans (hstep₂.buddy.trans hstep₃.buddy)
  refine ⟨pgtable, m₃, hev, fun p => ?_, ⟨hinv₃.tree, ?_, hinv₃.apart⟩, fun w hw e he => ?_,
    by omega⟩
  · have h1 : (m₁.pages p).pgtype ≠ .vmaArea := by
      by_cases hp : p = pgtable
      · rw [hp, hz.page]
        exact fun h => (nomatch h)
      · rw [hz.pages p hp]
        exact ht p
    have hfresh : ∀ {m m' : Memory A.toPageAllocator}, TableStep (fun _ => False) m m' 2 pgtable 0 →
        (m.pages p).pgtype ≠ .vmaArea → (m'.pages p).pgtype ≠ .vmaArea := by
      intro m m' hstep hm
      rcases hstep.fresh p with h | h
      · rwa [h]
      · rw [h]
        exact fun h => (nomatch h)
    exact hfresh hstep₃ (hfresh hstep₂ h1)
  · exact hinv₃.below.congr (fun _ _ => rfl) fun e p c _ _ hheld =>
      ⟨hheld.1, hheld.2.imp_right fun ⟨w, _, hk, _⟩ => hk.elim⟩
  · rw [hiff hent₃ w hw e he, htext w hw e he]

/-- `vm_module_init` finds objects and room for both areas of the kernel. -/
theorem vmModuleInit_succeeds {pgtable : ℕ} (h : x.Boot pgtable) (hobj : A.TwoAreas x.mem.buddy) :
    ∃ s, x.vmModuleInit pgtable = .ok (0, s) ∧ s.mem.buddy = A.twoAreas x.mem.buddy := by
  have hinv := h.inv
  have hk : x.kernVma ∈ (x.withKern pgtable).live .vma := hinv.kern_live
  have hlist : (x.withKern pgtable).list x.kernVma = [] := by
    unfold list
    rw [Boot.withKern_vmas]
  have hs := Sorted.nil hlist
  rcases h.init_cases with ⟨-, hun⟩ | ⟨x₁, a, hl, hm, -, hun⟩ | ⟨x₁, x₂, a, b, hr, heq⟩
  · refine absurd hun ?_
    rintro (hn | hn)
    · exact hobj.1 hn
    · refine hn ((hs.inTheWay_eq_none (hinv.listed _ hk) (kernelText_plain L)).2 ?_)
      rw [hlist]
      intro b hb
      cases hb
  · have hinv₁ := hl.inv hinv hk (kernelText_request _) fun hne => absurd rfl hne
    have hk₁ : x.kernVma ∈ x₁.live .vma := by
      rw [hl.frame.liveVma]
      exact hk
    have harea : x₁.areas a = kernelText L := by
      rw [hl.made, hl.unbacked (fun ht => (nomatch ht))]
      rfl
    have hlist₁ : x₁.list x.kernVma = [a] := by
      obtain ⟨l, r, h1, h2, -⟩ := hl.split
      rw [hlist] at h1
      obtain ⟨rfl, rfl⟩ := List.append_eq_nil_iff.1 h1.symm
      exact h2
    have hs₁ : x₁.Sorted x.kernVma := by
      refine ⟨fun b hb => ?_, by rw [hlist₁]; exact List.pairwise_singleton _ _⟩
      rw [hlist₁, List.mem_singleton] at hb
      rw [hb, harea]
      exact kernelText_plain L
    refine absurd hun ?_
    rintro (hn | hn)
    · refine hobj.2 ?_
      rw [show (A.objAlloc x.mem.buddy .vmaArea).2 = x₁.mem.buddy by rw [hm]; rfl]
      exact hn
    · refine hn ((hs₁.inTheWay_eq_none (hinv₁.listed _ hk₁) (kernelData_plain L)).2 fun b hb => ?_)
      rw [hlist₁, List.mem_singleton] at hb
      rw [hb, harea]
      exact kernelText_apart L
  · have hb := h.registered hr
    have hkern : x₂.kernVma = x.kernVma := hr.data.frame.kernVma.trans hr.text.frame.kernVma
    have hcheck := vmCheck_eq_zero hb.vm hb.vm.kern_live hb.sorted fun a ha => by
      rw [hb.list, List.mem_cons, List.mem_singleton] at ha
      rcases ha with rfl | rfl
      · rw [hb.text]
        show (vmProtV ||| vmProtX ||| vmProtR) &&& vmProtV ≠ 0
        decide
      · rw [hb.data]
        show (vmProtV ||| vmProtW ||| vmProtR) &&& vmProtV ≠ 0
        decide
    rw [hkern] at hcheck
    refine ⟨x₂, by rw [heq, hcheck], ?_⟩
    unfold VmEnv.twoAreas
    rw [show (A.objAlloc x.mem.buddy .vmaArea).2 = x₁.mem.buddy by rw [hr.textMem]; rfl, hr.dataMem]
    rfl

/-- The boot code maps the kernel, and `vm_module_init` registers it. -/
theorem boots (hA : A.toPageAllocator.Ample)
    (hobj : ∀ b, A.Evolves x.mem.buddy b → A.TwoAreas b) (hlive : x.live .vma = {x.kernVma})
    (hareas : x.live .vmaArea = ∅) (hk : x.kernVma ≠ 0) (hvmas : ∀ v, x.vmas v = .zero)
    (ht : ∀ p, (x.mem.pages p).pgtype ≠ .vmaArea) (hfree : 2 ^ 20 < x.mem.freePages.ncard) :
    ∃ s text data b, (vmRuns A).init s ∧ s.Booted text data ∧ A.Evolves x.mem.buddy b ∧
      s.mem.buddy = A.twoAreas b ∧
      x.mem.freePages.ncard < (A.freePages b).ncard + (2 ^ 20 + 1) := by
  obtain ⟨pgtable, m, hev, htypes, htab, hent, hn⟩ := bootTable hA x ht hfree
  -- the tables have cost pages, but no object
  have hl : A.live m.buddy = x.live := live_evolves hev
  have hboot : (x.withMem m).Boot pgtable := by
    refine ⟨?_, ?_, hk, hvmas, htypes, htab, hent⟩
    · show A.live m.buddy .vma = {x.kernVma}
      rw [hl, hlive]
    · show A.live m.buddy .vmaArea = ∅
      rw [hl, hareas]
  obtain ⟨s, hs, hbuddy⟩ := vmModuleInit_succeeds hboot (hobj m.buddy hev)
  obtain ⟨text, data, hb⟩ := hboot.booted hs
  exact ⟨s, text, data, m.buddy, ⟨_, pgtable, hboot, hs⟩, hb, hev, hbuddy, hn⟩

/-- With ample objects the areas cost no page. -/
theorem boots_booted (hA : A.Ample) (hlive : x.live .vma = {x.kernVma})
    (hareas : x.live .vmaArea = ∅) (hk : x.kernVma ≠ 0) (hvmas : ∀ v, x.vmas v = .zero)
    (ht : ∀ p, (x.mem.pages p).pgtype ≠ .vmaArea) (hfree : 2 ^ 20 < x.mem.freePages.ncard) :
    ∃ s text data, (vmRuns A).init s ∧ s.Booted text data ∧
      x.mem.freePages.ncard < s.mem.freePages.ncard + (2 ^ 20 + 1) := by
  obtain ⟨s, text, data, b, hs, hb, -, hbuddy, hn⟩ := boots hA.pages
    (fun b _ => ⟨hA.objAlloc _ _, hA.objAlloc _ _⟩) hlive hareas hk hvmas ht hfree
  refine ⟨s, text, data, hs, hb, ?_⟩
  have hpages : s.mem.freePages = A.freePages b := by
    show A.freePages s.mem.buddy = _
    rw [hbuddy]
    exact (hA.objAlloc_pages _ _).trans (hA.objAlloc_pages _ _)
  rwa [hpages]

end VmState

/-! ### A machine of 16 GiB -/

/-- All pages belong to the buddy allocator. -/
def vmMachine : VmEnv vmMachineLayout := .ofAllocator vmMachinePages

theorem vmMachine_ample : vmMachine.Ample := VmEnv.ofAllocator_ample vmMachinePages_ample

/-- What the boot code finds: the object `kern_vma` and all pages free. -/
def vmMachineReset : VmState vmMachine where
  mem := ⟨(vmMachineBuddy, fun k => if k = .vma then {1} else ∅), fun _ => .handed 0,
    fun _ _ => 0⟩
  vmas _ := .zero
  areas _ := kernelText vmMachineLayout
  kernVma := 1

/-- The machine boots, and there are pages left. -/
theorem vmMachine_boots : ∃ (s : VmState vmMachine) (text data : ℕ), (vmRuns vmMachine).init s ∧
    s.Booted text data ∧ 3 * 2 ^ 20 - 1 ≤ s.mem.freePages.ncard := by
  have hcard : vmMachineReset.mem.freePages.ncard = 2 ^ 22 := vmMachineBuddy_ncard
  obtain ⟨s, text, data, hs, hb, hn⟩ := VmState.boots_booted (x := vmMachineReset) vmMachine_ample
    rfl rfl (by decide) (fun _ => rfl) (fun _ h => (nomatch h)) (by rw [hcard]; norm_num)
  refine ⟨s, text, data, hs, hb, ?_⟩
  rw [hcard] at hn
  omega

/-- There is an address space besides the one of the kernel. -/
theorem vmMachine_alloc : ∃ (s x : VmState vmMachine) (text data v : ℕ),
    (vmRuns vmMachine).init s ∧ s.Booted text data ∧ s.vmaAlloc = .ok (v, x) ∧ v ≠ 0 ∧
    (vmRuns vmMachine).Reachable x ∧ 2 * 2 ^ 20 - 2 ≤ x.mem.freePages.ncard := by
  obtain ⟨s, text, data, hs, hb, hn⟩ := vmMachine_boots
  obtain ⟨v, x, hx, hv, hnx⟩ := VmState.vmaAlloc_succeeds vmMachine_ample hb (by omega)
  have hstep : (vmRuns vmMachine).step s .vmaAlloc x :=
    ⟨⟨trivial, .inl rfl⟩, (v : ℤ), by unfold VmState.exec; rw [hx]; rfl⟩
  exact ⟨s, x, text, data, v, hs, hb, hx, hv, .step (.of_init hs) hstep, by omega⟩

/-- Right after boot nothing is mapped behind the managed range. -/
theorem vmMachine_unmapped {A : VmEnv vmMachineLayout} {s : VmState A} {text data : ℕ}
    (hb : s.Booted text data) (w : ℕ) (hw : w < tableSpan)
    (hlow : vmMachineLayout.vaStart / pageSize + vmMachineLayout.pageNums ≤ w) :
    ¬ s.mem.ValidAt 2 (s.root s.kernVma) w := by
  rintro ⟨e, he, hve⟩
  have hlt := vmMachineLayout.seperate_lt
  rcases (hb.entries w hw e hve).1 he with ⟨hcov, -⟩ | ⟨hcov, -⟩
  · rw [kernelText_covers] at hcov
    omega
  · rw [kernelData_covers] at hcov
    omega

/-- Right after boot nothing is in the page behind the managed range. -/
theorem vmMachine_behind {A : VmEnv vmMachineLayout} {s : VmState A} {text data : ℕ}
    (hb : s.Booted text data) {area : VmaArea} (hva : area.va = vmMachineLayout.vaEnd)
    (hsize : area.size = 4096) :
    s.inTheWay s.kernVma area = none ∧
      ∀ w < tableSpan, area.Covers w → ¬ s.mem.ValidAt 2 (s.root s.kernVma) w := by
  constructor
  · rw [hb.sorted.inTheWay_eq_none (hb.vm.listed _ hb.vm.kern_live)
      (show area.va + area.size < 2 ^ 64 by rw [hva, hsize]; decide)]
    intro b hbl
    unfold VmaArea.Overlaps
    rw [hva]
    rw [hb.list, List.mem_cons, List.mem_singleton] at hbl
    rcases hbl with rfl | rfl
    · rw [hb.text]
      exact fun h => absurd h.1 (by decide)
    · rw [hb.data]
      exact fun h => absurd h.1 (by decide)
  · intro w hw hc
    have hlow : position 2 area.va ≤ w := hc.1
    rw [hva, show position 2 vmMachineLayout.vaEnd =
      vmMachineLayout.vaStart / pageSize + vmMachineLayout.pageNums by decide] at hlow
    exact vmMachine_unmapped hb w hw hlow

/-- The area of a page of memory in that place. -/
theorem vmMachine_page_low (p : ℕ) :
    (VmState.memoryArea vmMachineLayout vmMachineLayout.vaEnd p 0 7).Low := by
  show vmMachineLayout.vaEnd + 2 ^ 0 * pageSize ≤ 2 ^ 39
  decide

theorem vmMachine_page_covers (p : ℕ) :
    (VmState.memoryArea vmMachineLayout vmMachineLayout.vaEnd p 0 7).Covers
      (position 2 vmMachineLayout.vaEnd) := by
  rw [(vmMachine_page_low p).covers_iff (show vmMachineLayout.vaEnd % pageSize = 0 by decide)
    (show 2 ^ 0 * pageSize % pageSize = 0 by decide) (show 0 < 2 ^ 0 * pageSize by decide)]
  show vmMachineLayout.vaEnd ≤ _ ∧ _ < vmMachineLayout.vaEnd + 2 ^ 0 * pageSize
  decide

/-- A page of memory for the kernel. -/
theorem vmMachine_mmap : ∃ (s x : VmState vmMachine) (text data p a : ℕ),
    (vmRuns vmMachine).init s ∧ s.Booted text data ∧
    s.vmMmap s.kernVma vmMachineLayout.vaEnd 0 7 = .ok (0, x) ∧
    s.Added x s.kernVma a
      (VmState.memoryArea vmMachineLayout vmMachineLayout.vaEnd p 0 7) ∧
    (vmRuns vmMachine).Reachable x ∧ 5 * 2 ^ 19 - 1 ≤ x.mem.freePages.ncard := by
  obtain ⟨s, text, data, hs, hb, hn⟩ := vmMachine_boots
  have hk := hb.vm.kern_live
  obtain ⟨p, a, x, hx, ha, hnx⟩ := VmState.vmMmap_succeeds vmMachine_ample hb.inv hk
    (show vmMachineLayout.vaEnd % pageSize = 0 from rfl) (by decide) 7
    (fun p => (vmMachine_behind hb rfl rfl).1) (fun p => (vmMachine_behind hb rfl rfl).2) (by omega)
  have hstep : (vmRuns vmMachine).step s (.vmMmap s.kernVma vmMachineLayout.vaEnd 0 7) x :=
    ⟨⟨show _ < _ by decide, .inr hk⟩, 0, hx⟩
  exact ⟨s, x, text, data, p, a, hs, hb, hx, ha, .step (.of_init hs) hstep, by omega⟩

/-- With that page the areas of the kernel are low, and the one that may be written is a page. -/
theorem vmMachine_page_areas {s x : VmState vmMachine} {text data r a b : ℕ}
    (hb : s.Booted text data) (ha : s.Added x s.kernVma a
      (VmState.memoryArea vmMachineLayout vmMachineLayout.vaEnd r 0 7))
    (hbl : b ∈ x.list s.kernVma) :
    (x.areas b).Low ∧ ((x.areas b).Writable → (x.areas b).size = pageSize) := by
  rcases ha.list_cases hb.vm hb.vm.kern_live hbl with rfl | ⟨hbs, hbe⟩
  · rw [ha.made]
    exact ⟨vmMachine_page_low r, fun _ => rfl⟩
  · rw [hbe]
    refine ⟨hb.low b hbs, fun hw => ?_⟩
    -- the areas from boot are not of memory
    have ht := hw.1
    rw [hb.list, List.mem_cons, List.mem_singleton] at hbs
    rcases hbs with rfl | rfl
    · rw [hb.text] at ht
      cases ht
    · rw [hb.data] at ht
      cases ht

/-- The address space of the kernel is copied with that page, whatever its words are. -/
theorem vmMachine_dup {s x y : VmState vmMachine} {text data r a : ℕ} (hb : s.Booted text data)
    (ha : s.Added x s.kernVma a
      (VmState.memoryArea vmMachineLayout vmMachineLayout.vaEnd r 0 7)) (hy : y.VmInv)
    (hvmas : y.vmas = x.vmas) (hareas : y.areas = x.areas) (hlive : y.live = x.live)
    (hfree : 5 * 2 ^ 19 - 1 ≤ y.mem.freePages.ncard) :
    ∃ v z, y.vmaDup s.kernVma = .ok (v, z) ∧ v ≠ 0 ∧ 2 ^ 20 - 2 ≤ z.mem.freePages.ncard := by
  have hk := hb.vm.kern_live
  have hlist : y.list s.kernVma = x.list s.kernVma := by
    unfold VmState.list
    rw [hvmas]
  have hlen : (y.list s.kernVma).length = 3 := by
    rw [hlist, ha.length_list, hb.list]
    rfl
  have hsorted := hb.sorted.added hb.vm hk ha (vmMachine_page_low r).plain
  obtain ⟨v, z, hz, hv, hn⟩ := VmState.vmaDup_succeeds vmMachine_ample hy
    (by rw [hlive, ha.frame.liveVma]; exact hk)
    (hsorted.mono (by rw [hlist]) fun b _ => by rw [hareas])
    (fun b hbl => by
      rw [hareas]
      exact (vmMachine_page_areas hb ha (hlist ▸ hbl)).1)
    (fun b hbl => by
      rw [hareas]
      exact (vmMachine_page_areas hb ha (hlist ▸ hbl)).2)
    (by rw [hlen]; omega)
  refine ⟨v, z, hz, hv, ?_⟩
  rw [hlen] at hn
  omega

/-- A copy of that address space. -/
theorem vmMachine_copy : ∃ (s x y : VmState vmMachine) (text data p a v : ℕ),
    (vmRuns vmMachine).init s ∧ s.Booted text data ∧
    s.vmMmap s.kernVma vmMachineLayout.vaEnd 0 7 = .ok (0, x) ∧
    s.Added x s.kernVma a
      (VmState.memoryArea vmMachineLayout vmMachineLayout.vaEnd p 0 7) ∧
    x.kernVma = s.kernVma ∧ (vmRuns vmMachine).Reachable x ∧
    x.vmaDup s.kernVma = .ok (v, y) ∧ v ≠ 0 ∧ v ∈ y.live .vma ∧
    (vmRuns vmMachine).Reachable y := by
  obtain ⟨s, x, text, data, p, a, hs, hb, hx, ha, hr, hn⟩ := vmMachine_mmap
  have hinv := VmState.inv_reachable hr
  have hkern := ha.frame.kernVma
  have hk : s.kernVma ∈ x.live .vma := hkern ▸ hinv.vm.kern_live
  obtain ⟨v, y, hy, hv, -⟩ := vmMachine_dup hb ha hinv.vm rfl rfl rfl hn
  obtain ⟨z, pg, ho, hd⟩ := VmState.vmaDup_opened hinv hk hy hv
  have hlive : v ∈ y.live .vma := by
    rw [(hd.grown ho.inv (ho.live_iff.2 (.inl rfl))).frame.liveVma]
    exact ho.live_iff.2 (.inl rfl)
  have hstep : (vmRuns vmMachine).step x (.vmaDup s.kernVma) y := by
    refine ⟨⟨trivial, .inr hk⟩, (v : ℤ), ?_⟩
    unfold VmState.exec
    dsimp only
    rw [hy]
    rfl
  exact ⟨s, x, y, text, data, p, a, v, hs, hb, hx, ha, hkern, hr, hy, hv, hlive, hr.step hstep⟩

/-! ### The same machine with the trees of `avlmini.c` -/

abbrev avlMachine : VmEnv vmMachineLayout := vmMachine.withAvl

/-- What the boot code finds. -/
def avlMachineReset : VmState avlMachine where
  mem := vmMachineReset.mem
  vmas := vmMachineReset.vmas
  areas := vmMachineReset.areas
  kernVma := vmMachineReset.kernVma

theorem avlMachine_boots : ∃ (s : VmState avlMachine) (text data : ℕ),
    (vmRuns avlMachine).init s ∧ s.Booted text data ∧
      3 * 2 ^ 20 - 1 ≤ s.mem.freePages.ncard := by
  have hcard : avlMachineReset.mem.freePages.ncard = 2 ^ 22 := vmMachineBuddy_ncard
  obtain ⟨s, text, data, hs, hb, hn⟩ := VmState.boots_booted (x := avlMachineReset)
    vmMachine_ample.withAvl rfl rfl (by decide) (fun _ => rfl) (fun _ h => (nomatch h))
    (by rw [hcard]; norm_num)
  refine ⟨s, text, data, hs, hb, ?_⟩
  rw [hcard] at hn
  omega

end AcoOs
