/-
The page tables of several address spaces in one memory.

`Spaces` says that the address spaces `V` with page tables `root` do not get into each
other's way: their tables are disjoint from each other and from the blocks that back
areas.  The rules say how this survives an operation on one page table, on one block, and
a change that no page table sees, and what stays the same for everybody else.
-/
import AcoOs.PageTableFree

namespace AcoOs

open Radix

variable {L : VmLayout} {A : PageAllocator L.toLayout}

namespace Memory

variable {K : ℕ → Prop} {x x' : Memory A} {d t b p : ℕ}

/-- A page keeps its words, its block and its descriptor, and is not free afterwards. -/
structure Untouched (x x' : Memory A) (p : ℕ) : Prop where
  words : x'.words p = x.words p
  blocks : x'.blocks p = x.blocks p
  pages : x'.pages p = x.pages p
  notMem : p ∉ x'.freePages

theorem tables_untouched (h : ∀ p ∈ x.tables d t, x.Untouched x' p) :
    x'.tables d t = x.tables d t := tables_congr fun p hp => (h p hp).words

theorem leaf_untouched (h : ∀ p ∈ x.tables d t, x.Untouched x' p) {w : ℕ}
    (hw : w < 512 ^ (d + 1)) : x'.leaf d t w = x.leaf d t w :=
  leaf_congr (fun p hp => (h p hp).words) hw

/-- A page table whose tables are untouched stays well formed. -/
theorem TableInv.untouched (h : TableInv K x d t b) (hu : ∀ p ∈ x.tables d t, x.Untouched x' p) :
    TableInv K x' d t b where
  tree := h.tree.congr fun p hp => (hu p hp).words
  below := by
    refine h.below.congr (fun p hp => (hu p hp).words) fun e p c hp hsub hheld => ?_
    have hpu := hu p hp
    exact hheld.mono hpu.blocks hpu.pages fun w hw _ _ =>
      leaf_congr (fun q hq => (hu q (hsub hq)).words) hw
  apart p hp := by
    rw [tables_untouched hu] at hp
    exact (hu p hp).notMem

/-- A step on a page table leaves the pages alone that are neither free nor its tables. -/
theorem TableStep.untouched (h : TableStep K x x' d t b) (hf : p ∉ x.freePages)
    (ht : p ∉ x.tables d t) : x.Untouched x' p where
  words := (h.frame p hf ht).1
  blocks := (h.frame p hf ht).2.1
  pages := (h.frame p hf ht).2.2
  notMem := (h.frame_out hf ht).1

/-- A page that heads a block of order `o` that backs areas. -/
structure BacksAreas (x : Memory A) (p o : ℕ) : Prop where
  type : (x.pages p).pgtype = .vmaArea
  block : x.blocks p = some o
  order : (x.pages p).buddyOrder = o
  head : (x.pages p).buddyFlags = flagHead

/-- The page tables of the address spaces in `V`, with their pinned positions. -/
structure Spaces (x : Memory A) (V : Finset ℕ) (root : ℕ → ℕ) (pin : ℕ → ℕ → Prop) : Prop where
  table : ∀ v ∈ V, TableInv (pin v) x 2 (root v) 0
  pinned : ∀ v ∈ V, ∀ w, pin v w → w < tableSpan ∧ x.ValidAt 2 (root v) w
  apart : ∀ v ∈ V, ∀ w ∈ V, v ≠ w → Disjoint (x.tables 2 (root v)) (x.tables 2 (root w))
  backs : ∀ p, (x.pages p).pgtype = .vmaArea → ∃ o, x.BacksAreas p o
  block_apart : ∀ v ∈ V, ∀ p o, x.BacksAreas p o → ∀ q ∈ x.tables 2 (root v), q ∉ pagesOf p o

namespace BacksAreas

variable {o : ℕ}

theorem untouched (h : x.BacksAreas p o) (hu : x.Untouched x' p) :
    x'.BacksAreas p o where
  type := by rw [hu.pages]; exact h.type
  block := hu.blocks.trans h.block
  order := by rw [hu.pages]; exact h.order
  head := by rw [hu.pages]; exact h.head

theorem order_unique (h : x.BacksAreas p o) {o' : ℕ} (h' : x.BacksAreas p o') :
    o = o' := h.order.symm.trans h'.order

theorem notMem_pagesOf (h : x.BacksAreas p o) {q k : ℕ} (hq : x.blocks q = some k)
    (hne : p ≠ q) : p ∉ pagesOf q k := fun hpq =>
  hne ((A.wellFormed x.buddy).block_unique p o q k p h.block hq (self_mem_pagesOf p o) hpq)

end BacksAreas

namespace Spaces

variable {V : Finset ℕ} {root : ℕ → ℕ} {pin : ℕ → ℕ → Prop} {v w o : ℕ}

theorem backs_notMem_tables (h : x.Spaces V root pin) (hv : v ∈ V) (hp : x.BacksAreas p o) :
    p ∉ x.tables 2 (root v) :=
  fun hq => h.block_apart v hv p o hp p hq (self_mem_pagesOf p o)

theorem backs_notMem_free (hp : x.BacksAreas p o) {q : ℕ} (hq : q ∈ pagesOf p o) :
    q ∉ x.freePages := (A.wellFormed x.buddy).not_free p o q hp.block hq

/-- Nothing that the page tables see changes, and the blocks that back areas were there
before or are made of free pages. -/
theorem outside (h : x.Spaces V root pin)
    (hu : ∀ v ∈ V, ∀ p ∈ x.tables 2 (root v), x.Untouched x' p)
    (hb : ∀ p, (x'.pages p).pgtype = .vmaArea → ∃ o, x'.BacksAreas p o ∧
      (x.BacksAreas p o ∨ pagesOf p o ⊆ x.freePages)) : x'.Spaces V root pin where
  table v hv := (h.table v hv).untouched (hu v hv)
  pinned v hv w hw := by
    obtain ⟨hlt, e, he, hve⟩ := h.pinned v hv w hw
    exact ⟨hlt, e, (leaf_untouched (hu v hv) hlt).trans he, hve⟩
  apart v hv w hw hne := by
    rw [tables_untouched (hu v hv), tables_untouched (hu w hw)]
    exact h.apart v hv w hw hne
  backs p hp := by
    obtain ⟨o, ho, -⟩ := hb p hp
    exact ⟨o, ho⟩
  block_apart v hv p o hp q hq := by
    rw [tables_untouched (hu v hv)] at hq
    obtain ⟨o', ho', hor⟩ := hb p hp.type
    have hoo : o' = o := by
      have := ho'.block.symm.trans hp.block
      exact Option.some.inj this
    subst hoo
    rcases hor with hx | hx
    · exact h.block_apart v hv p o' hx q hq
    · exact fun hqp => (h.table v hv).apart q hq (hx hqp)

/-- An operation on one page table. -/
theorem tableStep (h : x.Spaces V root pin) (hv : v ∈ V)
    (hs : TableStep (pin v) x x' 2 (root v) 0) :
    x'.Spaces V root pin ∧
    (∀ w ∈ V, w ≠ v → ∀ p ∈ x.tables 2 (root w), x.Untouched x' p) ∧
    (∀ p o, x.BacksAreas p o → x.Untouched x' p) ∧
    ∀ p, (x'.pages p).pgtype = .vmaArea → (x.pages p).pgtype = .vmaArea := by
  have hother : ∀ w ∈ V, w ≠ v → ∀ p ∈ x.tables 2 (root w), x.Untouched x' p := by
    intro w hw hne p hp
    refine hs.untouched ((h.table w hw).apart p hp) fun hpv => ?_
    exact Finset.disjoint_left.1 (h.apart w hw v hv hne) hp hpv
  have hblocks : ∀ p o, x.BacksAreas p o → x.Untouched x' p := fun p o hp =>
    hs.untouched (backs_notMem_free hp (self_mem_pagesOf p o)) (h.backs_notMem_tables hv hp)
  have htype : ∀ p, (x'.pages p).pgtype = .vmaArea → (x.pages p).pgtype = .vmaArea := by
    intro p hp
    rcases hs.fresh p with hf | hf
    · rwa [hf] at hp
    · rw [hf] at hp
      exact absurd hp (by decide)
  have hbacks : ∀ p o, x'.BacksAreas p o → x.BacksAreas p o := by
    intro p o hp
    obtain ⟨o', ho'⟩ := h.backs p (htype p hp.type)
    have hu := hblocks p o' ho'
    exact ⟨ho'.type, hu.blocks.symm.trans hp.block, by rw [← hu.pages]; exact hp.order, ho'.head⟩
  -- a table of `v` is one from before or was a free page
  have hnew : ∀ p ∈ x'.tables 2 (root v), p ∈ x.freePages ∨ p ∈ x.tables 2 (root v) :=
    fun p hp => (hs.conserve p).1 (.inr hp)
  have hdisj : ∀ w ∈ V, w ≠ v →
      Disjoint (x'.tables 2 (root v)) (x'.tables 2 (root w)) := by
    intro w hw hne
    rw [tables_untouched (hother w hw hne), Finset.disjoint_left]
    intro p hp hpw
    rcases hnew p hp with hf | ht
    · exact (h.table w hw).apart p hpw hf
    · exact Finset.disjoint_left.1 (h.apart v hv w hw (Ne.symm hne)) ht hpw
  refine ⟨⟨fun w hw => ?_, fun w hw u hu => ?_, fun w hw u hu hne => ?_, fun p hp => ?_,
    fun w hw p o hp q hq => ?_⟩, hother, hblocks, htype⟩
  · by_cases hwv : w = v
    · rw [hwv]
      exact hs.inv
    · exact (h.table w hw).untouched (hother w hw hwv)
  · obtain ⟨hlt, e, he, hve⟩ := h.pinned w hw u hu
    by_cases hwv : w = v
    · subst hwv
      refine ⟨hlt, e, ?_, hve⟩
      rw [hs.keep u hlt (by rwa [Nat.zero_add]) ⟨e, he, hve⟩]
      exact he
    · exact ⟨hlt, e, (leaf_untouched (hother w hw hwv) hlt).trans he, hve⟩
  · by_cases hwv : w = v
    · subst hwv
      exact hdisj u hu (Ne.symm hne)
    · by_cases huv : u = v
      · subst huv
        exact (hdisj w hw hwv).symm
      · rw [tables_untouched (hother w hw hwv), tables_untouched (hother u hu huv)]
        exact h.apart w hw u hu hne
  · obtain ⟨o, ho⟩ := h.backs p (htype p hp)
    have hu := hblocks p o ho
    exact ⟨o, hp, hu.blocks.trans ho.block, by rw [hu.pages]; exact ho.order,
      by rw [hu.pages]; exact ho.head⟩
  · have hpx := hbacks p o hp
    by_cases hwv : w = v
    · subst hwv
      rcases hnew q hq with hf | ht
      · exact fun hqp => backs_notMem_free hpx hqp hf
      · exact h.block_apart w hw p o hpx q ht
    · rw [tables_untouched (hother w hw hwv)] at hq
      exact h.block_apart w hw p o hpx q hq

/-- One more address space, whose page table is a cleared page that was free. -/
theorem insert (h : x.Spaces V root pin) (hv : v ∉ V) (hpin : ∀ w, ¬ pin v w)
    (hzero : ∀ j < 512, x.words (root v) j = 0) (hfree : root v ∉ x.freePages)
    (happart : ∀ w ∈ V, root v ∉ x.tables 2 (root w))
    (hblock : ∀ p o, x.BacksAreas p o → root v ∉ pagesOf p o) :
    x.Spaces (insert v V) root pin := by
  have htab : x.tables 2 (root v) = {root v} := tables_of_empty hzero
  have hdisj : ∀ w ∈ V, Disjoint (x.tables 2 (root v)) (x.tables 2 (root w)) := by
    intro w hw
    rw [htab, Finset.disjoint_singleton_left]
    exact happart w hw
  have hinv : TableInv (pin v) x 2 (root v) 0 := by
    refine ⟨isTree_of_empty hzero, below_of_empty hzero, fun p hp => ?_⟩
    rw [htab, Finset.mem_singleton] at hp
    rwa [hp]
  refine ⟨fun w hw => ?_, fun w hw u hu => ?_, fun w hw u hu hne => ?_, h.backs,
    fun w hw p o hp q hq => ?_⟩
  · rcases Finset.mem_insert.1 hw with rfl | hw
    · exact hinv
    · exact h.table w hw
  · rcases Finset.mem_insert.1 hw with rfl | hw
    · exact absurd hu (hpin u)
    · exact h.pinned w hw u hu
  · rcases Finset.mem_insert.1 hw with rfl | hw'
    · rcases Finset.mem_insert.1 hu with rfl | hu'
      · exact absurd rfl hne
      · exact hdisj u hu'
    · rcases Finset.mem_insert.1 hu with rfl | hu'
      · exact (hdisj w hw').symm
      · exact h.apart w hw' u hu' hne
  · rcases Finset.mem_insert.1 hw with rfl | hw
    · rw [htab, Finset.mem_singleton] at hq
      rw [hq]
      exact hblock p o hp
    · exact h.block_apart w hw p o hp q hq

/-- Fewer address spaces. -/
theorem mono (h : x.Spaces V root pin) {V' : Finset ℕ} (hV : V' ⊆ V) : x.Spaces V' root pin where
  table v hv := h.table v (hV hv)
  pinned v hv := h.pinned v (hV hv)
  apart v hv w hw := h.apart v (hV hv) w (hV hw)
  backs := h.backs
  block_apart v hv := h.block_apart v (hV hv)

/-- Only the page tables and the pins of the address spaces in `V` matter. -/
theorem congr (h : x.Spaces V root pin) {root' : ℕ → ℕ} {pin' : ℕ → ℕ → Prop}
    (hr : ∀ v ∈ V, root' v = root v) (hp : ∀ v ∈ V, pin' v = pin v) :
    x.Spaces V root' pin' where
  table v hv := by
    rw [hr v hv, hp v hv]
    exact h.table v hv
  pinned v hv := by
    rw [hr v hv, hp v hv]
    exact h.pinned v hv
  apart v hv w hw := by
    rw [hr v hv, hr w hw]
    exact h.apart v hv w hw
  backs := h.backs
  block_apart v hv := by
    rw [hr v hv]
    exact h.block_apart v hv

/-! ### Blocks that back areas -/

/-- Only the allocator works, for somebody else; it may keep pages that were free. -/
theorem shrink (h : x.Spaces V root pin) (hfree : x'.freePages ⊆ x.freePages)
    (hblocks : x'.blocks = x.blocks) (hpages : x'.pages = x.pages) (hwords : x'.words = x.words) :
    x'.Spaces V root pin ∧ ∀ q, q ∉ x.freePages → x.Untouched x' q := by
  have hu : ∀ q, q ∉ x.freePages → x.Untouched x' q := fun q hq =>
    ⟨by rw [hwords], by rw [hblocks], by rw [hpages], fun hq' => hq (hfree hq')⟩
  refine ⟨h.outside (fun v hv q hq => hu q ((h.table v hv).apart q hq)) fun q hq => ?_, hu⟩
  rw [hpages] at hq
  obtain ⟨o, ho⟩ := h.backs q hq
  exact ⟨o, ho.untouched (hu q (backs_notMem_free ho (self_mem_pagesOf q o))), .inl ho⟩

/-- A block is taken from the free pages, and marked as one that backs areas or not. -/
theorem take (h : x.Spaces V root pin) {k : ℤ} {y : Memory A} (ha : x.bkpAllocZero k = (some p, y))
    (pg : Pageframe) (horder : pg.buddyOrder = k.toNat) (hhead : pg.buddyFlags = flagHead)
    (hx' : x' = { y with pages := Function.update y.pages p pg }) :
    x'.Spaces V root pin ∧ (∀ q, q ∉ x.freePages → x.Untouched x' q) ∧
    pagesOf p k.toNat ⊆ x.freePages ∧ x'.freePages = x.freePages \ pagesOf p k.toNat ∧
    x'.blocks p = some k.toNat ∧ x'.pages p = pg ∧ (∀ q, q ≠ p → x'.pages q = x.pages q) ∧
    ∀ j, x'.words p j = 0 := by
  obtain ⟨-, hz⟩ := bkpAllocZero_some ha
  have hp : p ∈ x.freePages := hz.mem_free
  have hpp : x'.pages p = pg := by
    rw [hx']
    exact Function.update_self p pg y.pages
  have hpb : x'.blocks p = some k.toNat := by
    rw [hx']
    exact hz.block
  have hother : ∀ q, q ≠ p → x'.pages q = x.pages q := by
    intro q hqp
    rw [hx']
    show Function.update y.pages p pg q = _
    rw [Function.update_of_ne hqp, hz.pages q hqp]
  have hu : ∀ q, q ∉ x.freePages → x.Untouched x' q := by
    intro q hq
    have hqp : q ≠ p := fun he => hq (he ▸ hp)
    refine ⟨?_, ?_, hother q hqp, ?_⟩
    · rw [hx']
      exact hz.words q fun hin => hq (hz.sub hin)
    · rw [hx']
      exact hz.blocks q hqp
    · rw [hx']
      show q ∉ y.freePages
      rw [hz.free]
      exact fun hq' => hq hq'.1
  refine ⟨h.outside (fun v hv q hq => hu q ((h.table v hv).apart q hq)) fun q hq => ?_, hu, hz.sub,
    ?_, hpb, hpp, hother, fun j => ?_⟩
  · by_cases hqp : q = p
    · subst hqp
      rw [hpp] at hq
      exact ⟨k.toNat, ⟨by rw [hpp, hq], hpb, by rw [hpp, horder], by rw [hpp, hhead]⟩,
        .inr hz.sub⟩
    · rw [hother q hqp] at hq
      obtain ⟨o, ho⟩ := h.backs q hq
      exact ⟨o, ho.untouched (hu q (backs_notMem_free ho (self_mem_pagesOf q o))), .inl ho⟩
  · rw [hx']
    exact hz.free
  · rw [hx']
    exact hz.clear j

/-- The count of references to a block changes. -/
theorem setRef (h : x.Spaces V root pin) (hp : x.BacksAreas p o) (r : ℤ)
    (hx' : x' = { x with pages := Function.update x.pages p { x.pages p with refCount := r } }) :
    x'.Spaces V root pin ∧ x'.BacksAreas p o ∧
    ∀ q, q ≠ p → q ∉ x.freePages → x.Untouched x' q := by
  have hu : ∀ q, q ≠ p → q ∉ x.freePages → x.Untouched x' q := by
    intro q hqp hq
    rw [hx']
    exact ⟨rfl, rfl, Function.update_of_ne hqp _ _, hq⟩
  have hpp : x'.pages p = { x.pages p with refCount := r } := by
    rw [hx']
    exact Function.update_self _ _ _
  have hback : x'.BacksAreas p o := by
    refine ⟨by rw [hpp]; exact hp.type, ?_, by rw [hpp]; exact hp.order,
      by rw [hpp]; exact hp.head⟩
    rw [hx']
    exact hp.block
  refine ⟨h.outside (fun v hv q hq => hu q ?_ ((h.table v hv).apart q hq)) fun q hq => ?_,
    hback, hu⟩
  · rintro rfl
    exact h.backs_notMem_tables hv hp hq
  · by_cases hqp : q = p
    · subst hqp
      exact ⟨o, hback, .inl hp⟩
    · have hpg : x'.pages q = x.pages q := by
        rw [hx']
        exact Function.update_of_ne hqp _ _
      rw [hpg] at hq
      obtain ⟨o', ho⟩ := h.backs q hq
      exact ⟨o', ho.untouched (hu q hqp (backs_notMem_free ho (self_mem_pagesOf q o'))), .inl ho⟩

/-- A block goes back to the free pages. -/
theorem giveBack (h : x.Spaces V root pin) (hp : x.BacksAreas p o) (pg : Pageframe)
    (ht : pg.pgtype = .buddyAllocator) (hh : pg.buddyFlags = flagHead) :
    ∃ x', ({ x with pages := Function.update x.pages p pg } : Memory A).bkpFree p = some x' ∧
    x'.Spaces V root pin ∧ x'.freePages = x.freePages ∪ pagesOf p o ∧ x'.pages p = pg ∧
    (∀ q, q ≠ p → x'.pages q = x.pages q) ∧
    ∀ q, q ∉ pagesOf p o → q ∉ x.freePages → x.Untouched x' q := by
  have hpp : ({ x with pages := Function.update x.pages p pg } : Memory A).pages p = pg :=
    Function.update_self _ _ _
  obtain ⟨x', heq, hfree, hblocks, hpages, hwords⟩ :=
    bkpFree_some (x := { x with pages := Function.update x.pages p pg }) (p := p) (k := o)
      hp.block (by rw [hpp, ht]) (by rw [hpp]; exact hh)
  have hother : ∀ q, q ≠ p → x'.pages q = x.pages q := by
    intro q hqp
    rw [hpages]
    exact Function.update_of_ne hqp _ _
  have hu : ∀ q, q ∉ pagesOf p o → q ∉ x.freePages → x.Untouched x' q := by
    intro q hq hqf
    have hqp : q ≠ p := fun he => hq (he ▸ self_mem_pagesOf p o)
    refine ⟨by rw [hwords], ?_, hother q hqp, ?_⟩
    · rw [hblocks, Function.update_of_ne hqp]
      rfl
    · rw [hfree]
      exact fun hor => hor.elim hqf hq
  refine ⟨x', heq, ?_, hfree, by rw [hpages, hpp], hother, hu⟩
  refine h.outside (fun v hv q hq => ?_) fun q hq => ?_
  · exact hu q (h.block_apart v hv p o hp q hq) ((h.table v hv).apart q hq)
  · by_cases hqp : q = p
    · rw [hqp, hpages, hpp, ht] at hq
      cases hq
    · rw [hother q hqp] at hq
      obtain ⟨o', ho⟩ := h.backs q hq
      exact ⟨o', ho.untouched (hu q (ho.notMem_pagesOf hp.block hqp)
        (backs_notMem_free ho (self_mem_pagesOf q o'))), .inl ho⟩

end Spaces

/-! ### What a call does to everybody else -/

theorem Untouched.trans {x'' : Memory A} (h : x.Untouched x' p) (h' : x'.Untouched x'' p) :
    x.Untouched x'' p where
  words := h'.words.trans h.words
  blocks := h'.blocks.trans h.blocks
  pages := h'.pages.trans h.pages
  notMem := h'.notMem

/-- Memory changed for address space `v`, not for the others nor for the blocks that back
areas. -/
structure Kept (V : Finset ℕ) (root : ℕ → ℕ) (pin : ℕ → ℕ → Prop) (v : ℕ) (x x' : Memory A) :
    Prop where
  spaces : x'.Spaces V root pin
  others : ∀ w ∈ V, w ≠ v → ∀ p ∈ x.tables 2 (root w), x.Untouched x' p
  backs : ∀ p o, x.BacksAreas p o → x.Untouched x' p
  types : ∀ p, (x'.pages p).pgtype = .vmaArea → (x.pages p).pgtype = .vmaArea
  root : x'.blocks (root v) = x.blocks (root v)
  words : ∀ p o, x.BacksAreas p o → ∀ q ∈ pagesOf p o, x'.words q = x.words q

namespace Kept

variable {V : Finset ℕ} {root : ℕ → ℕ} {pin : ℕ → ℕ → Prop} {v w o : ℕ} {x'' : Memory A}

theorem trans (h : Kept V root pin v x x') (h' : Kept V root pin v x' x'') :
    Kept V root pin v x x'' where
  spaces := h'.spaces
  others w hw hne p hp := by
    refine (h.others w hw hne p hp).trans (h'.others w hw hne p ?_)
    rwa [tables_untouched (h.others w hw hne)]
  backs p o hp := (h.backs p o hp).trans (h'.backs p o (hp.untouched (h.backs p o hp)))
  types p hp := h.types p (h'.types p hp)
  root := h'.root.trans h.root
  words p o hp q hq :=
    (h'.words p o (hp.untouched (h.backs p o hp)) q hq).trans (h.words p o hp q hq)

theorem of_tableStep (h : x.Spaces V root pin) (hv : v ∈ V)
    (hs : TableStep (pin v) x x' 2 (root v) 0) : Kept V root pin v x x' := by
  obtain ⟨h1, h2, h3, h4⟩ := h.tableStep hv hs
  refine ⟨h1, h2, h3, h4, hs.root.1, fun p o hp q hq => ?_⟩
  exact (hs.frame q (Spaces.backs_notMem_free hp hq)
    fun hqt => h.block_apart v hv p o hp q hqt hq).1

theorem of_shrink (h : x.Spaces V root pin) (hfree : x'.freePages ⊆ x.freePages)
    (hblocks : x'.blocks = x.blocks) (hpages : x'.pages = x.pages) (hwords : x'.words = x.words) :
    Kept V root pin v x x' := by
  obtain ⟨h1, h2⟩ := h.shrink hfree hblocks hpages hwords
  refine ⟨h1, fun w hw _ p hp => h2 p ((h.table w hw).apart p hp), fun p o hp => ?_,
    fun p hp => by rwa [hpages] at hp, by rw [hblocks], fun _ _ _ _ _ => by rw [hwords]⟩
  exact h2 p (Spaces.backs_notMem_free hp (self_mem_pagesOf p o))

theorem backs_iff (hx : x.Spaces V root pin) (h : Kept V root pin v x x') :
    x'.BacksAreas p o ↔ x.BacksAreas p o := by
  constructor
  · intro hp
    obtain ⟨o', ho'⟩ := hx.backs p (h.types p hp.type)
    have := (ho'.untouched (h.backs p o' ho')).order_unique hp
    exact this ▸ ho'
  · exact fun hp => hp.untouched (h.backs p o hp)

theorem blocks_root (h : Kept V root pin v x x') (hw : w ∈ V) :
    x'.blocks (root w) = x.blocks (root w) := by
  by_cases hwv : w = v
  · rw [hwv, h.root]
  · exact (h.others w hw hwv _ (root_mem_tables x 2 _)).blocks

end Kept

end Memory

end AcoOs
