/-
What `__vm_unmap` does.

An area is taken out of the tree and the list, its block counts one reference less and is
freed with the last one, and its range is cleared in the page table (`Removed`).  The block
is freed before the page table is cleared.
-/
import AcoOs.VmMap

namespace AcoOs

open Memory

variable {L : VmLayout} {A : VmEnv L}

namespace VmState

variable {x x' y : VmState A} {V : Finset ℕ} {v w a p o : ℕ} {root : ℕ → ℕ} {pin : ℕ → ℕ → Prop}

/-! ### The block of an area -/

/-- A reference to block `p` was dropped: it was the last one and the block is free, or the
block backs one area less. -/
structure Dropped (x y : VmState A) (a p o : ℕ) : Prop where
  vmas : y.vmas = x.vmas
  kernVma : y.kernVma = x.kernVma
  areas : y.areas = Function.update x.areas a { x.areas a with pgfm := none }
  live : y.live = x.live
  untouched : ∀ q, q ∉ pagesOf p o → q ∉ x.mem.freePages → x.mem.Untouched y.mem q
  types : ∀ q, (y.mem.pages q).pgtype = .vmaArea → (x.mem.pages q).pgtype = .vmaArea
  block : (x.mem.pages p).refCount = 1 ∧ (y.mem.pages p).pgtype = .buddyAllocator ∧
      y.mem.freePages = x.mem.freePages ∪ pagesOf p o ∨
    (x.mem.pages p).refCount ≠ 1 ∧ y.mem.BacksAreas p o ∧
      (y.mem.pages p).refCount = (x.mem.pages p).refCount - 1 ∧
      y.mem.freePages = x.mem.freePages

theorem dropBlock_spec (hsp : x.mem.Spaces V root pin) (hp : x.mem.BacksAreas p o)
    (hsize : (x.areas a).size = 2 ^ o * pageSize) :
    ∃ y, x.dropBlock p a = .ok y ∧ x.Dropped y a p o ∧ y.mem.Spaces V root pin := by
  have hok : x.BlockOk p (x.areas a) := by
    unfold BlockOk
    rw [hp.order, Nat.one_shiftLeft, hsize]
    exact ⟨hp.type, hp.head, rfl⟩
  unfold dropBlock
  rw [if_pos hok]
  dsimp only
  by_cases h1 : (x.mem.pages p).refCount = 1
  · rw [if_pos (by rw [h1]; rfl)]
    obtain ⟨m, hm, hspaces, hfree, hpp, hother, hu⟩ := hsp.giveBack hp
      { x.mem.pages p with
        pgtype := .buddyAllocator, refCount := (x.mem.pages p).refCount - 1 } rfl hp.head
    have hev := bkpFree_evolves hm
    have hlive : A.live m.buddy = A.live x.mem.buddy := live_evolves hev
    have hm' : (x.setPage p { x.mem.pages p with
        pgtype := .buddyAllocator, refCount := (x.mem.pages p).refCount - 1 }).mem.bkpFree p =
          some m := hm
    rw [hm']
    refine ⟨_, rfl, ⟨rfl, rfl, rfl, hlive, hu, fun q hq => ?_, .inl ⟨h1, ?_, hfree⟩⟩, hspaces⟩
    · by_cases hqp : q = p
      · rw [hqp]
        exact hp.type
      · rwa [← hother q hqp]
    · exact congrArg Pageframe.pgtype hpp
  · rw [if_neg fun h => h1 (by omega)]
    obtain ⟨hspaces, hback, hu⟩ := hsp.setRef hp ((x.mem.pages p).refCount - 1) rfl
    refine ⟨_, rfl, ⟨rfl, rfl, rfl, rfl, fun q hq => hu q ?_, fun q hq => ?_,
      .inr ⟨h1, hback, ?_, rfl⟩⟩, hspaces⟩
    · rintro rfl
      exact hq (self_mem_pagesOf q o)
    · by_cases hqp : q = p
      · rw [hqp]
        exact hp.type
      · have hq' : ((Function.update x.mem.pages p { x.mem.pages p with
            refCount := (x.mem.pages p).refCount - 1 }) q).pgtype = .vmaArea := hq
        rwa [Function.update_of_ne hqp] at hq'
    · exact congrArg Pageframe.refCount (Function.update_self (β := fun _ => Pageframe) p _ _)

/-! ### The page table of an area -/

/-- `hw_unmap` of an area. -/
theorem hwUnmapArea_cases (hsp : x.mem.Spaces V root pin) (hv : v ∈ V)
    (hpg : (x.vmas v).hwPgtable = some (root v)) {area : VmaArea}
    (hva : area.va % pageSize = 0) (hsize : area.size % pageSize = 0) (hpos : 0 < area.size)
    (hout : ∀ w, area.Covers w → ¬ pin v w) :
    (x.hwUnmapArea v area = .error .callee ∧
      tableSpan < position 2 area.va + area.size / pageSize) ∨
    ∃ m, x.hwUnmapArea v area = .ok (x.withMem m) ∧ TableStep (pin v) x.mem m 2 (root v) 0 ∧
      Erased x.mem m 2 (root v) (position 2 area.va) (toInt32 (area.size / pageSize)) ∧
      x.mem.Frees m ∧ ((∀ w < tableSpan, area.Covers w → x.mem.leaf 2 (root v) w ≠ none) →
        ∀ w < tableSpan, area.Covers w → Gone (m.leaf 2 (root v) w)) := by
  unfold hwUnmapArea
  rw [hpg]
  dsimp only
  rcases hm : x.mem.hwUnmap (root v) area.va area.size with _ | m
  · refine .inl ⟨rfl, ?_⟩
    by_contra hle
    have hle : position 2 area.va + area.size / pageSize ≤ tableSpan := by omega
    obtain ⟨m, hm', -⟩ := hwUnmap_spec (hsp.table v hv) hva hle fun w h1 h2 =>
      hout w ((area.covers_iff hle hsize hpos).2 ⟨h1, h2⟩)
    rw [Nat.div_mul_cancel (Nat.dvd_of_mod_eq_zero hsize), hm] at hm'
    cases hm'
  · obtain ⟨hstep, her, hexact⟩ := hwUnmap_some (hsp.table v hv) hout hm
    exact .inr ⟨m, rfl, hstep, her, hwUnmap_frees hm, hexact hpos⟩

/-! ### Taking an area out -/

/-- A page of a block whose only reference is the area `a`. -/
def LastPage (x : VmState A) (a q : ℕ) : Prop :=
  ∃ p o, (x.areas a).pgfm = some p ∧ x.mem.BacksAreas p o ∧ (x.mem.pages p).refCount = 1 ∧
    q ∈ pagesOf p o

/-- The area `a` is out of the tree, the list and its block, and still in the page table. -/
structure Detached (x y : VmState A) (v a : ℕ) : Prop where
  kernVma : y.kernVma = x.kernVma
  live : y.live = x.live
  vma : y.vmas v = { x.vmas v with
    lList := (x.vmas v).lList.erase a, aRoot := A.nodeErase (x.vmas v).aRoot a }
  vmas : ∀ w, w ≠ v → y.vmas w = x.vmas w
  areas : ∀ b, b ≠ a → y.areas b = x.areas b
  va : (y.areas a).va = (x.areas a).va
  size : (y.areas a).size = (x.areas a).size
  spaces : y.mem.Spaces (x.live .vma) x.root x.pin
  untouched : ∀ q, q ∉ x.mem.freePages →
    (∀ p o, (x.areas a).pgfm = some p → x.mem.BacksAreas p o → q ∉ pagesOf p o) →
    x.mem.Untouched y.mem q
  types : ∀ q, (y.mem.pages q).pgtype = .vmaArea → (x.mem.pages q).pgtype = .vmaArea
  block : ∀ p o, (x.areas a).pgfm = some p → x.mem.BacksAreas p o →
    (x.mem.pages p).refCount = 1 ∧ (y.mem.pages p).pgtype = .buddyAllocator ∨
    (x.mem.pages p).refCount ≠ 1 ∧ y.mem.BacksAreas p o ∧
      (y.mem.pages p).refCount = (x.mem.pages p).refCount - 1
  free : ∀ q, q ∈ y.mem.freePages ↔ q ∈ x.mem.freePages ∨ x.LastPage a q

/-- An area was removed. -/
structure Removed (x x' : VmState A) (v a : ℕ) : Prop where
  frame : x.Frame x' v
  live : x'.live = Function.update x.live .vmaArea ((x.live .vmaArea).erase a)
  list : x'.list v = (x.list v).erase a
  toList : (x'.vmas v).aRoot.toList = x'.list v
  areas : ∀ b, b ≠ a → x'.areas b = x.areas b
  spaces : x'.mem.Spaces (x.live .vma) x.root x.pin
  roots : ∀ w ∈ x.live .vma, x'.mem.blocks (x.root w) = x.mem.blocks (x.root w)
  types : ∀ q, (x'.mem.pages q).pgtype = .vmaArea → (x.mem.pages q).pgtype = .vmaArea
  others : ∀ p o, x.mem.BacksAreas p o → (x.areas a).pgfm ≠ some p → x.mem.Untouched x'.mem p
  block : ∀ p o, (x.areas a).pgfm = some p → x.mem.BacksAreas p o →
    (x.mem.pages p).refCount = 1 ∧ (x'.mem.pages p).pgtype = .buddyAllocator ∧
      pagesOf p o ⊆ x'.mem.freePages ∨
    (x.mem.pages p).refCount ≠ 1 ∧ x'.mem.BacksAreas p o ∧
      (x'.mem.pages p).refCount = (x.mem.pages p).refCount - 1
  frees : x.mem.Frees x'.mem
  conserve : ∀ q, q ∈ x'.mem.freePages ∨ q ∈ x'.mem.tables 2 (x.root v) ↔
    q ∈ x.mem.freePages ∨ q ∈ x.mem.tables 2 (x.root v) ∨ x.LastPage a q
  erased : ∀ w < tableSpan, x'.entry v w = x.entry v w ∨
    Gone (x'.entry v w) ∧ (Gone (x.entry v w) ∨ (x.areas a).Covers w)
  exact : (∀ w < tableSpan, (x.areas a).Covers w → x.entry v w ≠ none) →
    ∀ w < tableSpan, (x.areas a).Covers w → Gone (x'.entry v w)

namespace Detached

/-- Without a block there is nothing to do. -/
theorem of_unhang (h : x.VmInv) (hn : (x.areas a).pgfm = none) :
    x.Detached (x.vmaAreaUnhang v a) v a where
  kernVma := rfl
  live := rfl
  vma := Function.update_self (β := fun _ => Vma) _ _ _
  vmas w hw := Function.update_of_ne (β := fun _ => Vma) hw _ _
  areas _ _ := rfl
  va := rfl
  size := rfl
  spaces := h.spaces
  untouched _ hq _ := ⟨rfl, rfl, rfl, hq⟩
  types _ hq := hq
  block p o hp := by
    rw [hn] at hp
    cases hp
  free q := by
    refine ⟨.inl, fun hq => hq.resolve_right ?_⟩
    rintro ⟨p, o, hp, -⟩
    rw [hn] at hp
    cases hp

theorem of_drop (hp : (x.areas a).pgfm = some p) (hb : x.mem.BacksAreas p o)
    (hd : (x.vmaAreaUnhang v a).Dropped y a p o)
    (hsp : y.mem.Spaces (x.live .vma) x.root x.pin) : x.Detached y v a where
  kernVma := hd.kernVma
  live := hd.live
  vma := by
    rw [hd.vmas]
    exact Function.update_self (β := fun _ => Vma) _ _ _
  vmas w hw := by
    rw [hd.vmas]
    exact Function.update_of_ne (β := fun _ => Vma) hw _ _
  areas b hb := by
    rw [hd.areas]
    exact Function.update_of_ne (β := fun _ => VmaArea) hb _ _
  va := by
    rw [hd.areas, Function.update_self (β := fun _ => VmaArea)]
    rfl
  size := by
    rw [hd.areas, Function.update_self (β := fun _ => VmaArea)]
    rfl
  spaces := hsp
  untouched q hq hn := hd.untouched q (hn p o hp hb) hq
  types := hd.types
  block p' o' hp' hb' := by
    rw [hp] at hp'
    cases hp'
    rw [hb'.order_unique hb]
    exact hd.block.imp (fun h => ⟨h.1, h.2.1⟩) fun h => ⟨h.1, h.2.1, h.2.2.1⟩
  free q := by
    rcases hd.block with ⟨h1, -, hf⟩ | ⟨h1, -, -, hf⟩
    · rw [hf]
      refine or_congr Iff.rfl ⟨fun hq => ⟨p, o, hp, hb, h1, hq⟩, ?_⟩
      rintro ⟨p', o', hp', hb', -, hq⟩
      rw [hp] at hp'
      cases hp'
      rwa [hb.order_unique hb']
    · rw [hf]
      refine ⟨.inl, fun hq => hq.resolve_right ?_⟩
      rintro ⟨p', o', hp', -, h2, -⟩
      rw [hp] at hp'
      cases hp'
      exact h1 h2

/-- The tables of the address spaces are not in the block. -/
theorem tables (hd : x.Detached y v a) (h : x.VmInv) (hw : w ∈ x.live .vma) :
    ∀ q ∈ x.mem.tables 2 (x.root w), x.mem.Untouched y.mem q := fun q hq =>
  hd.untouched q ((h.spaces.table w hw).apart q hq) fun p o _ hb =>
    h.spaces.block_apart w hw p o hb q hq

end Detached

/-- The area was taken out and cleared in the page table, which left memory `m`, and then its object
was freed. -/
structure Cleared (x y x' : VmState A) (m : Memory A.toPageAllocator) (v a : ℕ) : Prop where
  detached : x.Detached y v a
  step : TableStep (x.pin v) y.mem m 2 (x.root v) 0
  frees : y.mem.Frees m
  atAllocators : (y.withMem m).AtAllocators x'
  freePages : x'.mem.freePages = m.freePages
  live : x'.live = Function.update x.live .vmaArea ((x.live .vmaArea).erase a)

namespace Cleared

variable {m : Memory A.toPageAllocator}

theorem vma (hc : x.Cleared y x' m v a) : x'.vmas v = { x.vmas v with
    lList := (x.vmas v).lList.erase a, aRoot := A.nodeErase (x.vmas v).aRoot a } := by
  rw [hc.atAllocators.vmas]
  exact hc.detached.vma

theorem vmas (hc : x.Cleared y x' m v a) (hw : w ≠ v) : x'.vmas w = x.vmas w := by
  rw [hc.atAllocators.vmas]
  exact hc.detached.vmas w hw

theorem root_eq (hc : x.Cleared y x' m v a) (w : ℕ) : x'.root w = x.root w := by
  unfold VmState.root
  by_cases hw : w = v
  · rw [hw, hc.vma]
  · rw [hc.vmas hw]

/-- Up to the clearing the entries are what they were. -/
theorem leaf_before (hc : x.Cleared y x' m v a) (h : x.VmInv) (hv : v ∈ x.live .vma)
    (hw : w < tableSpan) : y.mem.leaf 2 (x.root v) w = x.entry v w :=
  leaf_untouched (hc.detached.tables h hv) hw

theorem entry_eq (hc : x.Cleared y x' m v a) (w : ℕ) :
    x'.entry v w = m.leaf 2 (x.root v) w := by
  unfold entry
  rw [hc.root_eq, hc.atAllocators.leaf]
  rfl

theorem kept (hc : x.Cleared y x' m v a) (hv : v ∈ x.live .vma) :
    Kept (x.live .vma) x.root x.pin v y.mem x'.mem := by
  obtain ⟨hsp, -⟩ := hc.detached.spaces.tableStep hv hc.step
  exact (Kept.of_tableStep hc.detached.spaces hv hc.step).trans (hc.atAllocators.kept hsp)

theorem frame (hc : x.Cleared y x' m v a) (h : x.VmInv) (hv : v ∈ x.live .vma) :
    x.Frame x' v where
  kernVma := by
    rw [hc.atAllocators.kernVma]
    exact hc.detached.kernVma
  liveVma := by
    rw [hc.live]
    rfl
  vmas _ hw := hc.vmas hw
  hwPgtable := by rw [hc.vma]
  kernelVma := by rw [hc.vma]
  entry w hw hne u hu := by
    have hy := hc.detached.tables h hw
    have hx' : ∀ q ∈ x.mem.tables 2 (x.root w), x.mem.Untouched x'.mem q := by
      intro q hq
      refine (hy q hq).trans ((hc.kept hv).others w hw hne q ?_)
      rwa [tables_untouched hy]
    unfold entry
    rw [hc.root_eq]
    exact leaf_untouched hx' hu

/-- The blocks of the other areas. -/
theorem others (hc : x.Cleared y x' m v a) (hv : v ∈ x.live .vma) (hb : x.mem.BacksAreas p o)
    (hne : (x.areas a).pgfm ≠ some p) : x.mem.Untouched x'.mem p := by
  have hu : x.mem.Untouched y.mem p := by
    refine hc.detached.untouched p (Spaces.backs_notMem_free hb (self_mem_pagesOf p o)) ?_
    intro q k hq hbq
    exact hb.notMem_pagesOf hbq.block fun he => hne (he ▸ hq)
  exact hu.trans ((hc.kept hv).backs p o (hb.untouched hu))

/-- The block of the area, which the clearing does not touch. -/
theorem block (hc : x.Cleared y x' m v a) (hv : v ∈ x.live .vma)
    (hp : (x.areas a).pgfm = some p) (hb : x.mem.BacksAreas p o) :
    (x.mem.pages p).refCount = 1 ∧ (x'.mem.pages p).pgtype = .buddyAllocator ∧
      pagesOf p o ⊆ x'.mem.freePages ∨
    (x.mem.pages p).refCount ≠ 1 ∧ x'.mem.BacksAreas p o ∧
      (x'.mem.pages p).refCount = (x.mem.pages p).refCount - 1 := by
  rcases hc.detached.block p o hp hb with ⟨h1, ht⟩ | ⟨h1, hby, href⟩
  · refine .inl ⟨h1, ?_, fun q hq => ?_⟩
    · rw [show x'.mem.pages p = m.pages p from congrFun hc.atAllocators.pages p]
      rcases hc.step.fresh p with hf | hf
      · rw [hf, ht]
      · rw [hf]
        rfl
    · rw [hc.freePages]
      exact hc.frees ((hc.detached.free q).2 (.inr ⟨p, o, hp, hb, h1, hq⟩))
  · have hu := (hc.kept hv).backs p o hby
    exact .inr ⟨h1, hby.untouched hu, by rw [hu.pages, href]⟩

theorem conserve (hc : x.Cleared y x' m v a) (h : x.VmInv) (hv : v ∈ x.live .vma) (q : ℕ) :
    q ∈ x'.mem.freePages ∨ q ∈ x'.mem.tables 2 (x.root v) ↔
      q ∈ x.mem.freePages ∨ q ∈ x.mem.tables 2 (x.root v) ∨ x.LastPage a q := by
  have htables : x'.mem.tables 2 (x.root v) = m.tables 2 (x.root v) :=
    Radix.tables_congr fun q _ => congrFun hc.atAllocators.words q
  rw [hc.freePages, htables, hc.step.conserve, hc.detached.free,
    tables_untouched (hc.detached.tables h hv)]
  tauto

theorem removed (hc : x.Cleared y x' m v a) (h : x.VmInv) (hv : v ∈ x.live .vma)
    (her : Erased y.mem m 2 (x.root v) (position 2 (x.areas a).va)
      (toInt32 ((x.areas a).size / pageSize)))
    (hexact : (∀ w < tableSpan, (x.areas a).Covers w → y.mem.leaf 2 (x.root v) w ≠ none) →
      ∀ w < tableSpan, (x.areas a).Covers w → Gone (m.leaf 2 (x.root v) w)) :
    x.Removed x' v a where
  frame := hc.frame h hv
  live := hc.live
  list := by
    unfold list
    rw [hc.vma]
  toList := by
    unfold list
    rw [hc.vma]
    show (A.nodeErase (x.vmas v).aRoot a).toList = _
    rw [A.toList_nodeErase, (h.listed v hv).toList]
    rfl
  areas b hb := by
    rw [hc.atAllocators.areas]
    exact hc.detached.areas b hb
  spaces := (hc.kept hv).spaces
  roots w hw := by
    rw [(hc.kept hv).blocks_root hw]
    exact (hc.detached.tables h hw _ (root_mem_tables x.mem 2 _)).blocks
  types q hq := hc.detached.types q ((hc.kept hv).types q hq)
  others _ _ hb hne := hc.others hv hb hne
  block _ _ hp hb := hc.block hv hp hb
  frees q hq := by
    rw [hc.freePages]
    exact hc.frees ((hc.detached.free q).2 (.inl hq))
  conserve q := hc.conserve h hv q
  erased w hw := by
    have he := her w hw
    rw [hc.entry_eq]
    rwa [hc.leaf_before h hv hw] at he
  exact hno w hw hcov := by
    rw [hc.entry_eq]
    refine hexact (fun u hu huc => ?_) w hw hcov
    rw [hc.leaf_before h hv hu]
    exact hno u hu huc

end Cleared

/-- The page table is cleared and the object is freed. -/
theorem Detached.removed (hd : x.Detached y v a) (h : x.VmInv) (hv : v ∈ x.live .vma)
    (ha : a ∈ x.list v) {m : Memory A.toPageAllocator}
    (hstep : TableStep (x.pin v) y.mem m 2 (x.root v) 0) (hfrees : y.mem.Frees m)
    (her : Erased y.mem m 2 (x.root v) (position 2 (x.areas a).va)
      (toInt32 ((x.areas a).size / pageSize)))
    (hexact : (∀ w < tableSpan, (x.areas a).Covers w → y.mem.leaf 2 (x.root v) w ≠ none) →
      ∀ w < tableSpan, (x.areas a).Covers w → Gone (m.leaf 2 (x.root v) w)) :
    ∃ x', (y.withMem m).objFree .vmaArea a = some x' ∧ x.Removed x' v a := by
  have hlive : (y.withMem m).live = x.live := (live_evolves hstep.buddy).trans hd.live
  obtain ⟨x', hx', hat, hfree, hl⟩ := objFree_some (x := y.withMem m) (k := .vmaArea) (a := a)
    (by rw [hlive]; exact h.mem_live hv ha)
  rw [hlive] at hl
  have hc : x.Cleared y x' m v a := ⟨hd, hstep, hfrees, hat, hfree, hl⟩
  exact ⟨x', hx', hc.removed h hv her hexact⟩

/-- An area is removed, unless `hw_unmap` stops the kernel at the end of the page table. -/
theorem removeArea_cases (h : x.VmInv) (hv : v ∈ x.live .vma) (ha : a ∈ x.list v)
    (hout : ∀ w, (x.areas a).Covers w → ¬ x.pin v w) :
    (x.removeArea v a (x.areas a).vmarTyp = .error .callee ∧
      tableSpan < position 2 (x.areas a).va + (x.areas a).size / pageSize) ∨
    ∃ x', x.removeArea v a (x.areas a).vmarTyp = .ok x' ∧ x.Removed x' v a := by
  have hok := h.list_ok hv ha
  -- with the area detached, the rest is the same for all types
  have htail : ∀ y, x.Detached y v a → y.areas a = { x.areas a with pgfm := none } →
      (y.hwUnmapArea v (y.areas a) = .error .callee ∧
        tableSpan < position 2 (x.areas a).va + (x.areas a).size / pageSize) ∨
      ∃ z x', y.hwUnmapArea v (y.areas a) = .ok z ∧ z.objFree .vmaArea a = some x' ∧
        x.Removed x' v a := by
    intro y hd hya
    have hpg : (y.vmas v).hwPgtable = some (x.root v) := by
      rw [hd.vma]
      exact h.hwPgtable v hv
    have hcases := hwUnmapArea_cases hd.spaces hv hpg
      (show (y.areas a).va % pageSize = 0 by rw [hd.va]; exact hok.va_aligned)
      (by rw [hd.size]; exact hok.size_aligned)
      (by rw [hd.size]; exact hok.size_pos) (by rw [hya]; exact hout)
    rw [hya] at hcases ⊢
    rcases hcases with herr | ⟨m, hm, hstep, her, hfrees, hexact⟩
    · exact .inl herr
    · obtain ⟨x', hx', hrem⟩ := hd.removed h hv ha hstep hfrees her hexact
      exact .inr ⟨_, x', hm, hx', hrem⟩
  have hfinish : ∀ r : Except VmAssert (VmState A),
      hwUnmapCallbacks (x.areas a).vmarTyp (x.vmaAreaUnhang v a) v a = r →
      (r = .error .callee ∧
        tableSpan < position 2 (x.areas a).va + (x.areas a).size / pageSize ∨
      ∃ z x', r = .ok z ∧ z.objFree .vmaArea a = some x' ∧ x.Removed x' v a) →
      (x.removeArea v a (x.areas a).vmarTyp = .error .callee ∧
        tableSpan < position 2 (x.areas a).va + (x.areas a).size / pageSize) ∨
      ∃ x', x.removeArea v a (x.areas a).vmarTyp = .ok x' ∧ x.Removed x' v a := by
    intro r hr hor
    unfold removeArea
    rw [hr]
    rcases hor with ⟨rfl, hlt⟩ | ⟨z, x', rfl, hz, hrem⟩
    · exact .inl ⟨rfl, hlt⟩
    · refine .inr ⟨x', ?_, hrem⟩
      dsimp only
      rw [hz]
      rfl
  have hio : (x.areas a).vmarTyp ≠ .memory →
      hwUnmapCallbacks (x.areas a).vmarTyp (x.vmaAreaUnhang v a) v a =
        (x.vmaAreaUnhang v a).hwUnmapArea v ((x.vmaAreaUnhang v a).areas a) := by
    cases (x.areas a).vmarTyp with
    | kernel => exact fun _ => rfl
    | io => exact fun _ => rfl
    | memory => exact fun hne => absurd rfl hne
  by_cases ht : (x.areas a).vmarTyp = .memory
  · obtain ⟨p, o, hp, hb, -, hsize⟩ := hok.backed ht
    obtain ⟨y, hy, hdrop, hsp⟩ := dropBlock_spec (x := x.vmaAreaUnhang v a) h.spaces hb hsize
    have hpa : ((x.vmaAreaUnhang v a).areas a).pa ≠ paLazy := paLazy_ne hok.pa_aligned
    have heq : hwUnmapCallbacks (x.areas a).vmarTyp (x.vmaAreaUnhang v a) v a =
        y.hwUnmapArea v (y.areas a) := by
      rw [ht]
      show (x.vmaAreaUnhang v a).unmmapMemoryCb v a = _
      unfold unmmapMemoryCb
      rw [if_neg hpa, show ((x.vmaAreaUnhang v a).areas a).pgfm = some p from hp]
      dsimp only
      rw [hy]
    have hya : y.areas a = { x.areas a with pgfm := none } := by
      rw [hdrop.areas]
      exact Function.update_self (β := fun _ => VmaArea) _ _ _
    exact hfinish _ heq (htail y (.of_drop hp hb hdrop hsp) hya)
  · have hn := hok.unbacked ht
    have hrec : x.areas a = { x.areas a with pgfm := none } := by rw [← hn]
    exact hfinish _ (hio ht) (htail _ (.of_unhang h hn) hrec)

theorem Removed.backs (hr : x.Removed x' v a) (h : x.VmInv) {b : ℕ} (hb : b ∈ x.live .vmaArea)
    (hba : b ≠ a) (ha : a ∈ x.live .vmaArea) (ht : (x.areas b).vmarTyp = .memory)
    (hp : (x.areas b).pgfm = some p) (hbp : x.mem.BacksAreas p o) : x'.mem.BacksAreas p o := by
  by_cases hap : (x.areas a).pgfm = some p
  · rcases hr.block p o hap hbp with ⟨h1, -⟩ | ⟨-, hx', -⟩
    · -- two areas cannot share the last reference
      exfalso
      have hta : (x.areas a).vmarTyp = .memory := by
        by_contra hne
        rw [(h.areaOk a ha).unbacked hne] at hap
        cases hap
      have hcard := h.refCount p hbp.type
      rw [h1] at hcard
      have hsub : ({a, b} : Finset ℕ) ⊆ x.backed (x.live .vmaArea) p := by
        intro c hc
        rw [Finset.mem_insert, Finset.mem_singleton] at hc
        rcases hc with rfl | rfl
        · exact Finset.mem_filter.2 ⟨ha, hta, hap⟩
        · exact Finset.mem_filter.2 ⟨hb, ht, hp⟩
      have hle := Finset.card_le_card hsub
      rw [Finset.card_pair (Ne.symm hba)] at hle
      omega
    · exact hx'
  · exact hbp.untouched (hr.others p o hbp hap)

theorem Removed.inv (hr : x.Removed x' v a) (h : x.VmInv) (hv : v ∈ x.live .vma)
    (ha : a ∈ x.list v) : x'.VmInv := by
  have hal := h.mem_live hv ha
  have hlive : x'.live .vmaArea = (x.live .vmaArea).erase a := by
    rw [hr.live, Function.update_self]
  have hnd := (h.listed v hv).nodup
  refine h.step hr.frame hv ⟨hr.toList, ?_⟩ hr.spaces (fun w hw _ => hr.roots w hw) ?_ ?_ ?_ ?_
  · rw [hr.list]
    exact hnd.erase a
  · intro b
    rw [hlive, Finset.mem_erase, hr.list, hnd.mem_erase_iff]
    constructor
    · rintro ⟨hba, hb⟩
      by_cases hbl : b ∈ x.list v
      · exact .inl ⟨hba, hbl⟩
      · exact .inr ⟨hb, hbl⟩
    · rintro (⟨hba, hbl⟩ | ⟨hb, hbl⟩)
      · exact ⟨hba, h.mem_live hv hbl⟩
      · exact ⟨fun he => hbl (he ▸ ha), hb⟩
  · intro b hb
    rw [hr.list] at hb
    exact .inl (List.mem_of_mem_erase hb)
  · intro b hb
    rw [hlive, Finset.mem_erase] at hb
    have hok := h.areaOk b hb.2
    rw [hr.areas b hb.1]
    refine hok.mono fun p o hp hbp => ?_
    have ht : (x.areas b).vmarTyp = .memory := by
      by_contra hne
      rw [hok.unbacked hne] at hp
      cases hp
    exact hr.backs h hb.2 hb.1 hal ht hp hbp
  · intro p hp
    obtain ⟨o, ho⟩ := h.spaces.backs p (hr.types p hp)
    have hsame : x'.backed ((x.live .vmaArea).erase a) p =
        x.backed ((x.live .vmaArea).erase a) p :=
      backed_congr (fun b hb => hr.areas b (Finset.mem_erase.1 hb).1) p
    have herase : x.backed ((x.live .vmaArea).erase a) p =
        (x.backed (x.live .vmaArea) p).erase a := by
      unfold backed
      rw [Finset.filter_erase]
    rw [hlive, hsame, herase]
    by_cases hap : (x.areas a).pgfm = some p
    · have hta : (x.areas a).vmarTyp = .memory := by
        by_contra hne
        rw [(h.areaOk a hal).unbacked hne] at hap
        cases hap
      have hmem : a ∈ x.backed (x.live .vmaArea) p := Finset.mem_filter.2 ⟨hal, hta, hap⟩
      rcases hr.block p o hap ho with ⟨-, ht, -⟩ | ⟨-, -, href⟩
      · rw [ht] at hp
        cases hp
      · rw [href, h.refCount p ho.type, Finset.card_erase_of_mem hmem]
        have := Finset.card_pos.2 ⟨a, hmem⟩
        omega
    · rw [(hr.others p o ho hap).pages, h.refCount p ho.type, Finset.erase_eq_of_notMem]
      exact fun hm => hap (Finset.mem_filter.1 hm).2.2

/-! ### `__vm_unmap` -/

theorem findCompare_eq_zero {va size : ℕ} {area : VmaArea} :
    findCompare va size area = 0 ↔ va = area.va ∧ size = area.size := by
  unfold findCompare
  split_ifs with h1 h2
  · simp [h1]
  · simp [h1]
  · simp [h1]

/-- What a search finds is an area of the list with just that range. -/
theorem findArea_some (h : x.Listed v) {va size : ℕ} (hf : x.findArea v va size = some a) :
    a ∈ x.list v ∧ (x.areas a).va = va ∧ (x.areas a).size = size := by
  obtain ⟨h1, h2⟩ := SearchTree.find_some hf
  rw [h.toList] at h1
  obtain ⟨h3, h4⟩ := findCompare_eq_zero.1 h2
  exact ⟨h1, h3.symm, h4.symm⟩

theorem VmInv.not_pin (h : x.VmInv) (hv : v ∈ x.live .vma) (ha : a ∈ x.list v)
    (ht : (x.areas a).vmarTyp ≠ .kernel) (hc : (x.areas a).Covers w) : ¬ x.pin v w := by
  unfold pin
  split_ifs
  · exact (h.list_ok hv ha).outside ht w hc
  · exact id

/-- `__vm_unmap`, asked for an area that is none of the kernel's. -/
theorem vmUnmapInternal_cases (h : x.VmInv) (hv : v ∈ x.live .vma) {va size : ℕ} {typ : VmarType}
    (hva : va % pageSize = 0) (hsize : size % pageSize = 0) (hpos : 0 < size)
    (ht : typ ≠ .kernel) :
    (x.findArea v va size = none ∧ x.vmUnmapInternal v va size typ = .ok (-enobufs, x)) ∨
    ∃ a ∈ x.list v, x.findArea v va size = some a ∧ (x.areas a).va = va ∧
      (x.areas a).size = size ∧
      ((x.areas a).vmarTyp ≠ typ ∧ x.vmUnmapInternal v va size typ = .ok (-eperm, x) ∨
      (x.areas a).vmarTyp = typ ∧
        (x.vmUnmapInternal v va size typ = .error .callee ∧
          tableSpan < position 2 va + size / pageSize ∨
        ∃ x', x.vmUnmapInternal v va size typ = .ok (0, x') ∧ x.Removed x' v a)) := by
  unfold vmUnmapInternal
  rw [if_pos ⟨h.ne_zero hv, hpos, hva, hsize⟩]
  rcases hf : x.findArea v va size with _ | a
  · exact .inl ⟨rfl, rfl⟩
  · obtain ⟨ha, rfl, rfl⟩ := findArea_some (h.listed v hv) hf
    refine .inr ⟨a, ha, rfl, rfl, rfl, ?_⟩
    dsimp only
    rw [if_pos ⟨rfl, rfl⟩]
    by_cases hty : (x.areas a).vmarTyp = typ
    · rw [if_neg (not_not.2 hty), ← hty]
      rw [← hty] at ht
      refine .inr ⟨rfl, ?_⟩
      rcases removeArea_cases h hv ha fun w hc => h.not_pin hv ha ht hc with
        ⟨herr, hlt⟩ | ⟨x', hx', hrem⟩
      · rw [herr]
        exact .inl ⟨rfl, hlt⟩
      · rw [hx']
        exact .inr ⟨x', rfl, hrem⟩
    · rw [if_pos hty]
      exact .inl ⟨hty, rfl⟩

/-! ### Blocks and their last areas -/

/-- A page of a block that backs areas of `v` only. -/
def OnlyBy (x : VmState A) (v q : ℕ) : Prop :=
  ∃ p o, x.mem.BacksAreas p o ∧ q ∈ pagesOf p o ∧
    ∀ b ∈ x.live .vmaArea, (x.areas b).pgfm = some p → b ∈ x.list v

/-- The only area of a block with one reference. -/
theorem VmInv.eq_of_refCount (h : x.VmInv) (ha : a ∈ x.live .vmaArea)
    (hpa : (x.areas a).pgfm = some p) {b : ℕ} (hb : b ∈ x.live .vmaArea)
    (hpb : (x.areas b).pgfm = some p) (hbp : x.mem.BacksAreas p o)
    (h1 : (x.mem.pages p).refCount = 1) : b = a := by
  have hcard := h.refCount p hbp.type
  rw [h1] at hcard
  refine Finset.card_le_one.1 (by omega : (x.backed (x.live .vmaArea) p).card ≤ 1) b ?_ a ?_
  · exact Finset.mem_filter.2 ⟨hb, h.memory_of_pgfm hb hpb, hpb⟩
  · exact Finset.mem_filter.2 ⟨ha, h.memory_of_pgfm ha hpa, hpa⟩

namespace Removed

theorem mem_live (hr : x.Removed x' v a) {b : ℕ} :
    b ∈ x'.live .vmaArea ↔ b ≠ a ∧ b ∈ x.live .vmaArea := by
  rw [hr.live, Function.update_self, Finset.mem_erase]

/-- A block is left alone, or loses a reference, or is freed with its last one. -/
theorem backs_or (hr : x.Removed x' v a) (hb : x.mem.BacksAreas p o) :
    x'.mem.BacksAreas p o ∨ (x.areas a).pgfm = some p ∧ (x.mem.pages p).refCount = 1 ∧
      (x'.mem.pages p).pgtype = .buddyAllocator ∧ pagesOf p o ⊆ x'.mem.freePages := by
  by_cases hap : (x.areas a).pgfm = some p
  · rcases hr.block p o hap hb with ⟨h1, h2, h3⟩ | ⟨-, h2, -⟩
    · exact .inr ⟨hap, h1, h2, h3⟩
    · exact .inl h2
  · exact .inl (hb.untouched (hr.others p o hb hap))

theorem backs_of (hr : x.Removed x' v a) (h : x.VmInv) (hb : x'.mem.BacksAreas p o) :
    x.mem.BacksAreas p o := by
  obtain ⟨o', ho'⟩ := h.spaces.backs p (hr.types p hb.type)
  rcases hr.backs_or ho' with hx' | ⟨-, -, ht, -⟩
  · rwa [hb.order_unique hx']
  · rw [hb.type] at ht
    cases ht

theorem referenced (hr : x.Removed x' v a) (h : x.VmInv) (hv : v ∈ x.live .vma)
    (ha : a ∈ x.list v) (href : x.Referenced) : x'.Referenced := by
  intro p hp
  have hinv := hr.inv h hv ha
  obtain ⟨o, ho⟩ := hinv.spaces.backs p hp
  have hox := hr.backs_of h ho
  obtain ⟨b, hb, htb, hpb⟩ := href p hox.type
  by_cases hba : b = a
  · subst hba
    -- the block had a second reference, since it still backs areas
    rcases hr.block p o hpb hox with ⟨-, ht, -⟩ | ⟨hne, -, hcount⟩
    · rw [hp] at ht
      cases ht
    · have hcard := hinv.refCount p hp
      have hxcard := h.refCount p hox.type
      have hpos : 0 < (x.backed (x.live .vmaArea) p).card :=
        Finset.card_pos.2 ⟨b, Finset.mem_filter.2 ⟨hb, htb, hpb⟩⟩
      have hpos' : 0 < (x'.backed (x'.live .vmaArea) p).card := by omega
      obtain ⟨c, hc⟩ := Finset.card_pos.1 hpos'
      obtain ⟨h1, h2, h3⟩ := Finset.mem_filter.1 hc
      exact ⟨c, h1, h2, h3⟩
  · exact ⟨b, hr.mem_live.2 ⟨hba, hb⟩, by rw [hr.areas b hba]; exact htb,
      by rw [hr.areas b hba]; exact hpb⟩

theorem sameSpace (hr : x.Removed x' v a) (h : x.VmInv) (hv : v ∈ x.live .vma)
    (ha : a ∈ x.list v) (hw : w ∈ x.live .vma) (hne : w ≠ v) : x.SameSpace x' w where
  list := hr.frame.list hne
  areas b hb := hr.areas b fun he => hne (h.owner w hw v hv b hb (he ▸ ha))
  entries := .of_eq fun u hu => hr.frame.entry w hw hne u hu

/-- The pages that only back areas of `v`, before and after the removal. -/
theorem onlyBy_iff (hr : x.Removed x' v a) (h : x.VmInv) (hv : v ∈ x.live .vma)
    (ha : a ∈ x.list v) {q : ℕ} :
    x.OnlyBy v q ↔ x.LastPage a q ∨ x'.OnlyBy v q := by
  have hal := h.mem_live hv ha
  have hnd := (h.listed v hv).nodup
  constructor
  · rintro ⟨p, o, hb, hq, honly⟩
    rcases hr.backs_or hb with hx' | ⟨hap, h1, -, -⟩
    · refine .inr ⟨p, o, hx', hq, fun b hbl hbp => ?_⟩
      obtain ⟨hba, hbx⟩ := hr.mem_live.1 hbl
      rw [hr.areas b hba] at hbp
      rw [hr.list, hnd.mem_erase_iff]
      exact ⟨hba, honly b hbx hbp⟩
    · exact .inl ⟨p, o, hap, hb, h1, hq⟩
  · rintro (⟨p, o, hap, hb, h1, hq⟩ | ⟨p, o, hx', hq, honly⟩)
    · refine ⟨p, o, hb, hq, fun b hbl hbp => ?_⟩
      rw [h.eq_of_refCount hal hap hbl hbp hb h1]
      exact ha
    · refine ⟨p, o, hr.backs_of h hx', hq, fun b hbl hbp => ?_⟩
      by_cases hba : b = a
      · rw [hba]
        exact ha
      · have := honly b (hr.mem_live.2 ⟨hba, hbl⟩) (by rw [hr.areas b hba]; exact hbp)
        rw [hr.list] at this
        exact List.mem_of_mem_erase this

end Removed

end VmState

end AcoOs
