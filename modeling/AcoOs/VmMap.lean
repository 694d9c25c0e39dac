/-
What `__vm_mmap` does.

The area is put into the tree and the list, entered into the page table, and its block, if
it has one, counts one more reference (`Mapped`).  When the area is refused or the page
table cannot take it, everything that is visible stays as it was (`Refused`).
-/
import AcoOs.VmInvariant

namespace AcoOs

open Memory

variable {L : VmLayout} {A : VmEnv L}

/-- The entries of an area were written, and no other valid entry changed. -/
structure Entered (m m' : Memory A.toPageAllocator) (t : ℕ) (area : VmaArea) : Prop where
  wrote : ∀ w < tableSpan, area.Covers w →
    ¬ m.ValidAt 2 t w ∧ m'.leaf 2 t w = some (area.pte w)
  rest : ∀ w < tableSpan, ¬ area.Covers w →
    m'.leaf 2 t w = m.leaf 2 t w ∨ m.leaf 2 t w = none ∧ m'.leaf 2 t w = some 0

/-- `hw_mmap` of an area. -/
theorem hwMmap_area {K : ℕ → Prop} {m : Memory A.toPageAllocator} {t : ℕ} {area : VmaArea}
    (hinv : TableInv K m 2 t 0) (hKv : ∀ w, K w → m.ValidAt 2 t w)
    (hva : area.va % pageSize = 0) (hpa : area.pa % pageSize = 0) (hpa' : area.pa < 2 ^ 64)
    (hsize : area.size % pageSize = 0) (hpos : 0 < area.size) :
    toInt32 (area.size / pageSize) < 0 ∧
      m.hwMmap t area.va area.pa area.prot area.size = none ∨
    ∃ ret m', m.hwMmap t area.va area.pa area.prot area.size = some (ret, m') ∧
      TableStep K m m' 2 t 0 ∧ (ret = 0 ∧ Entered m m' t area ∨ SameTrans m m' t ∧
        ∃ w < tableSpan, area.Covers w ∧
          (ret = -enomem ∧ m.leaf 2 t w = none ∧ m.Exhausts K t ∨
            ret = -eexist ∧ m.ValidAt 2 t w)) := by
  by_cases hneg : 0 ≤ toInt32 (area.size / pageSize)
  · right
    obtain ⟨ret, m', heq, hstep, hor⟩ :=
      hwMmap_spec hinv hKv hva hpa hpa' hsize hneg area.prot
    refine ⟨ret, m', heq, hstep, ?_⟩
    rcases hor with ⟨rfl, k, hw, hend, hle, hone⟩ | ⟨-, hsame, hwhy⟩
    · left
      have hk := hone (by omega)
      have hcov : ∀ w < tableSpan, area.Covers w ↔
          position 2 area.va ≤ w ∧ w < position 2 area.va + k := by
        intro w hw
        unfold VmaArea.Covers InRange
        refine and_congr_right fun _ => ⟨fun h => ?_, fun h hn => ?_⟩
        · rcases hend with he | he
          · have := h (by omega)
            omega
          · omega
        · have := hle hn
          rcases hend with he | he <;> omega
      refine ⟨rfl, fun w hwt hc => ?_, fun w hwt hc => ?_⟩
      · obtain ⟨h1, h2⟩ := (hcov w hwt).1 hc
        exact hw.wrote w h1 h2
      · refine hw.rest w hwt ?_
        rw [hcov w hwt] at hc
        omega
    · exact .inr ⟨hsame, hwhy⟩
  · refine .inl ⟨by omega, ?_⟩
    unfold hwMmap
    rw [if_pos ⟨hva, hpa, hsize⟩, if_neg (by omega), if_neg hneg]

theorem paLazy_ne {pa : ℕ} (h : pa % pageSize = 0) : pa ≠ paLazy := by
  rintro rfl
  exact absurd h (by decide)

namespace VmState

variable {x x' : VmState A} {V : Finset ℕ} {v w a p : ℕ} {root : ℕ → ℕ}
  {pin : ℕ → ℕ → Prop} {area : VmaArea}

/-- What a mapping may be asked for: the area of `__vm_mmap` before it is hung. -/
structure Request (x : VmState A) (area : VmaArea) : Prop where
  va_aligned : area.va % pageSize = 0
  pa_aligned : area.pa % pageSize = 0
  size_aligned : area.size % pageSize = 0
  size_pos : 0 < area.size
  va_lt : area.va < 2 ^ 64
  pa_lt : area.pa < 2 ^ 64
  size_lt : area.size < 2 ^ 64
  pgfm : area.pgfm = none
  backed : area.vmarTyp = .memory → ∃ p o, x.mem.BacksAreas p o ∧ area.pa = L.pg2pa p ∧
    area.size = 2 ^ o * pageSize
  kernel : area.vmarTyp = .kernel → area = kernelText L ∨ area = kernelData L

/-! ### The callbacks -/

theorem hwMmapArea_cases (hsp : x.mem.Spaces V root pin) (hv : v ∈ V)
    (hpg : (x.vmas v).hwPgtable = some (root v)) (hr : x.Request area) :
    toInt32 (area.size / pageSize) < 0 ∧ x.hwMmapArea v area = .error .callee ∨
    ∃ ret m, x.hwMmapArea v area = .ok (ret, { x with mem := m }) ∧
      TableStep (pin v) x.mem m 2 (root v) 0 ∧
      (ret = 0 ∧ Entered x.mem m (root v) area ∨ SameTrans x.mem m (root v) ∧
        ∃ w < tableSpan, area.Covers w ∧ (ret = -enomem ∧ x.mem.leaf 2 (root v) w = none ∧
            x.mem.Exhausts (pin v) (root v) ∨
          ret = -eexist ∧ x.mem.ValidAt 2 (root v) w)) := by
  unfold hwMmapArea
  rw [hpg]
  dsimp only
  rcases hwMmap_area (hsp.table v hv) (fun w hw => (hsp.pinned v hv w hw).2) hr.va_aligned
    hr.pa_aligned hr.pa_lt hr.size_aligned hr.size_pos with ⟨hneg, h⟩ | ⟨ret, m, heq, h⟩
  · rw [h]
    exact .inl ⟨hneg, rfl⟩
  · rw [heq]
    exact .inr ⟨ret, m, rfl, h⟩

/-- The state with another memory. -/
def withMem (x : VmState A) (m : Memory A.toPageAllocator) : VmState A := { x with mem := m }

/-- The state in which block `p` backs one more area. -/
def referenced (x : VmState A) (vmaArea p : ℕ) : VmState A :=
  (x.setPage p { x.mem.pages p with refCount := (x.mem.pages p).refCount + 1 }).setArea vmaArea
    { x.areas vmaArea with pgfm := some p }

/-- What is left to do when `hw_mmap` returned. -/
def afterHwMmap (y : VmState A) (vmaArea : ℕ) (ret : ℤ) : Except VmAssert (ℤ × VmState A) :=
  if ret = -eexist then .error .eexist
  else if ret ≠ 0 then .ok (ret, y)
  else if (y.areas vmaArea).vmarTyp = .memory then
    if y.BlockOk (L.pa2pg (y.areas vmaArea).pa) (y.areas vmaArea) then
      .ok (0, y.referenced vmaArea (L.pa2pg (y.areas vmaArea).pa))
    else .error .block
  else .ok (0, y)

/-- The callbacks differ in what they do after the page table was written. -/
theorem hwMapCallbacks_eq (hr : x.Request (x.areas a)) :
    hwMapCallbacks (x.areas a).vmarTyp x v a =
      match x.hwMmapArea v (x.areas a) with
      | .error e => .error e
      | .ok (ret, y) => y.afterHwMmap a ret := by
  have hsame : ∀ ret y, x.hwMmapArea v (x.areas a) = .ok (ret, y) → y.areas = x.areas := by
    intro ret y hy
    unfold hwMmapArea at hy
    split at hy
    · cases hy
    · split at hy
      · cases hy
      · cases hy
        rfl
  have hio : (x.areas a).vmarTyp ≠ .memory → mmapKernelIoHwCb x v a =
      match x.hwMmapArea v (x.areas a) with
      | .error e => .error e
      | .ok (ret, y) => y.afterHwMmap a ret := by
    intro ht
    unfold mmapKernelIoHwCb
    rcases hy : x.hwMmapArea v (x.areas a) with e | ⟨ret, y⟩
    · rfl
    · dsimp only
      unfold afterHwMmap
      rw [hsame ret y hy, if_neg ht, ite_not]
      by_cases h0 : ret = 0
      · rw [h0, if_neg (not_not.2 rfl)]
      · rw [if_pos h0]
  cases ht : (x.areas a).vmarTyp with
  | kernel => exact hio (by rw [ht]; decide)
  | io => exact hio (by rw [ht]; decide)
  | memory =>
    obtain ⟨p, o, hp, hpa, -⟩ := hr.backed ht
    have hvalid : L.paValid (x.areas a).pa := by
      rw [hpa]
      exact VmLayout.paValid_pg2pa (A.block_lt hp.block)
    show mmapMemoryCb x v a = _
    unfold mmapMemoryCb
    rw [if_pos hr.pgfm, if_neg (paLazy_ne hr.pa_aligned), if_pos hvalid]
    rcases hy : x.hwMmapArea v (x.areas a) with e | ⟨ret, y⟩
    · rfl
    · dsimp only
      unfold afterHwMmap
      rw [hsame ret y hy, if_pos ht, ite_not]
      rfl

/-- The callbacks of `__vm_mmap`: an `ASSERT` other than those on the block fails, or there is
no memory for a table that is missing, or the area is entered. -/
theorem mapCallback_cases (hsp : x.mem.Spaces V root pin) (hv : v ∈ V)
    (hpg : (x.vmas v).hwPgtable = some (root v)) (hr : x.Request (x.areas a)) :
    (∃ e, hwMapCallbacks (x.areas a).vmarTyp x v a = .error e ∧
      (e = .callee ∧ toInt32 ((x.areas a).size / pageSize) < 0 ∨
        e = .eexist ∧ ∃ w < tableSpan, (x.areas a).Covers w ∧ x.mem.ValidAt 2 (root v) w)) ∨
    ∃ m, TableStep (pin v) x.mem m 2 (root v) 0 ∧
      ((hwMapCallbacks (x.areas a).vmarTyp x v a = .ok (-enomem, x.withMem m) ∧
        SameTrans x.mem m (root v) ∧ x.mem.Exhausts (pin v) (root v) ∧
        ∃ w < tableSpan, (x.areas a).Covers w ∧ x.mem.leaf 2 (root v) w = none) ∨
      Entered x.mem m (root v) (x.areas a) ∧
        ((x.areas a).vmarTyp ≠ .memory ∧
          hwMapCallbacks (x.areas a).vmarTyp x v a = .ok (0, x.withMem m) ∨
        (x.areas a).vmarTyp = .memory ∧ ∃ p o, x.mem.BacksAreas p o ∧
          (x.areas a).pa = L.pg2pa p ∧ (x.areas a).size = 2 ^ o * pageSize ∧
          hwMapCallbacks (x.areas a).vmarTyp x v a = .ok (0, (x.withMem m).referenced a p))) := by
  rw [hwMapCallbacks_eq hr]
  rcases hwMmapArea_cases hsp hv hpg hr with ⟨hneg, herr⟩ | ⟨ret, m, heq, hstep, hor⟩
  · -- `hw_mmap` stops the kernel
    rw [herr]
    exact .inl ⟨.callee, rfl, .inl ⟨rfl, hneg⟩⟩
  · rw [heq]
    dsimp only
    unfold afterHwMmap
    rcases hor with ⟨rfl, hent⟩ | ⟨hsame, w, hw, hc, ⟨rfl, hnone, hex⟩ | ⟨rfl, hvalid⟩⟩
    · right
      refine ⟨m, hstep, .inr ⟨hent, ?_⟩⟩
      rw [if_neg (by decide), if_neg (by decide)]
      by_cases ht : (x.areas a).vmarTyp = .memory
      · obtain ⟨p, o, hp, hpa, hsize⟩ := hr.backed ht
        have hpg : L.pa2pg (x.areas a).pa = p := by
          rw [hpa, VmLayout.pa2pg_pg2pa (A.block_lt hp.block)]
        have hok : ({ x with mem := m } : VmState A).BlockOk p (x.areas a) := by
          have hpages := ((hsp.tableStep hv hstep).2.2.1 p o hp).pages
          unfold BlockOk
          dsimp only
          rw [hpages, hp.order, Nat.one_shiftLeft, hsize]
          exact ⟨hp.type, hp.head, rfl⟩
        rw [if_pos ht, hpg, if_pos hok]
        exact .inr ⟨ht, p, o, hp, hpa, hsize, rfl⟩
      · rw [if_neg ht]
        exact .inl ⟨ht, rfl⟩
    · right
      rw [if_neg (by decide), if_pos (by decide)]
      exact ⟨m, hstep, .inl ⟨rfl, hsame, hex, w, hw, hc, hnone⟩⟩
    · left
      rw [if_pos rfl]
      exact ⟨.eexist, rfl, .inr ⟨rfl, w, hw, hc, hvalid⟩⟩

/-! ### `__vm_mmap` -/

/-- Nothing that is visible changed. -/
structure Refused (x x' : VmState A) (v : ℕ) : Prop where
  frame : x.Frame x' v
  list : x'.list v = x.list v
  toList : (x'.vmas v).aRoot.toList = (x.vmas v).aRoot.toList
  live : x'.live = x.live
  areas : ∀ a ∈ x.live .vmaArea, x'.areas a = x.areas a
  kept : Kept (x.live .vma) x.root x.pin v x.mem x'.mem
  entries : x.SameEntries x' v

/-- The area is in the tree and the list, as the object `a`, and its block counts it. -/
structure Linked (x x' : VmState A) (v a : ℕ) (area : VmaArea) : Prop where
  frame : x.Frame x' v
  fresh : a ∉ x.live .vmaArea
  live : x'.live = Function.update x.live .vmaArea (insert a (x.live .vmaArea))
  toList : (x'.vmas v).aRoot.toList = x'.list v
  split : ∃ l r, x.list v = l ++ r ∧ x'.list v = l ++ a :: r ∧ ((x.vmas v).aRoot.add
    (fun node => insertCompareVmarea area (x.areas node)) a).2.toList = l ++ a :: r
  areas : ∀ b, b ≠ a → x'.areas b = x.areas b
  made : x'.areas a = { area with pgfm := (x'.areas a).pgfm }
  spaces : x'.mem.Spaces (x.live .vma) x.root x.pin
  roots : ∀ w ∈ x.live .vma, x'.mem.blocks (x.root w) = x.mem.blocks (x.root w)
  types : ∀ p, (x'.mem.pages p).pgtype = .vmaArea → (x.mem.pages p).pgtype = .vmaArea
  others : ∀ p o, x.mem.BacksAreas p o → (x'.areas a).pgfm ≠ some p → x.mem.Untouched x'.mem p
  unbacked : area.vmarTyp ≠ .memory → (x'.areas a).pgfm = none
  backed : area.vmarTyp = .memory → ∃ p o, (x'.areas a).pgfm = some p ∧
    x.mem.BacksAreas p o ∧ x'.mem.BacksAreas p o ∧ area.pa = L.pg2pa p ∧
    area.size = 2 ^ o * pageSize ∧
    (x'.mem.pages p).refCount = (x.mem.pages p).refCount + 1
  words : ∀ p o, x.mem.BacksAreas p o → ∀ q ∈ pagesOf p o, x'.mem.words q = x.mem.words q

/-- The area was mapped: it is also in the page table. -/
structure Mapped (x x' : VmState A) (v a : ℕ) (area : VmaArea) : Prop
    extends Linked x x' v a area where
  conserve : ∀ q, q ∈ x'.mem.freePages ∨ q ∈ x'.mem.tables 2 (x.root v) ↔
    q ∈ (x.objAlloc .vmaArea).2.mem.freePages ∨ q ∈ x.mem.tables 2 (x.root v)
  wrote : ∀ w < tableSpan, area.Covers w →
    ¬ x.mem.ValidAt 2 (x.root v) w ∧ x'.entry v w = some (area.pte w)
  rest : ∀ w < tableSpan, ¬ area.Covers w →
    x'.entry v w = x.entry v w ∨ x.entry v w = none ∧ x'.entry v w = some 0

theorem Refused.inv (hr : x.Refused x' v) (h : x.VmInv)
    (hv : v ∈ x.live .vma) : x'.VmInv := by
  refine h.step hr.frame hv ?_ hr.kept.spaces (fun w hw _ => hr.kept.blocks_root hw) ?_ ?_ ?_ ?_
  · refine ⟨by rw [hr.toList, hr.list]; exact (h.listed v hv).toList, ?_⟩
    rw [hr.list]
    exact (h.listed v hv).nodup
  · intro a
    rw [hr.live, hr.list]
    refine ⟨fun ha => ?_, fun ha => ha.elim (h.mem_live hv) And.left⟩
    by_cases hal : a ∈ x.list v
    · exact .inl hal
    · exact .inr ⟨ha, hal⟩
  · intro a ha
    rw [hr.list] at ha
    exact .inl ha
  · intro a ha
    rw [hr.live] at ha
    rw [hr.areas a ha]
    exact (h.areaOk a ha).mono fun p o _ hp => hp.untouched (hr.kept.backs p o hp)
  · intro p hp
    obtain ⟨o, ho⟩ := h.spaces.backs p (hr.kept.types p hp)
    rw [(hr.kept.backs p o ho).pages, hr.live, backed_congr hr.areas]
    exact h.refCount p ho.type

theorem Linked.backs (hm : x.Linked x' v a area) {o : ℕ} (hp : x.mem.BacksAreas p o) :
    x'.mem.BacksAreas p o := by
  by_cases he : (x'.areas a).pgfm = some p
  · have ht : area.vmarTyp = .memory := by
      by_contra hne
      rw [hm.unbacked hne] at he
      cases he
    obtain ⟨q, o', hq, hx, hx', -⟩ := hm.backed ht
    rw [he] at hq
    cases hq
    rwa [hp.order_unique hx]
  · exact hp.untouched (hm.others p o hp he)

namespace Linked

variable {b : ℕ}

theorem ne_of_live (hm : x.Linked x' v a area) (hb : b ∈ x.live .vmaArea) : b ≠ a :=
  fun he => hm.fresh (he ▸ hb)

theorem live_insert (hm : x.Linked x' v a area) :
    x'.live .vmaArea = insert a (x.live .vmaArea) := by
  rw [hm.live, Function.update_self]

theorem mem_list (hm : x.Linked x' v a area) : b ∈ x'.list v ↔ b = a ∨ b ∈ x.list v := by
  obtain ⟨l, r, hl, hl', -⟩ := hm.split
  rw [hl', hl]
  simp only [List.mem_append, List.mem_cons]
  tauto

/-- An area that the comparison puts behind every other one becomes the last of the list. -/
theorem list_last (hm : x.Linked x' v a area) (hlist : (x.vmas v).aRoot.toList = x.list v)
    (h : ∀ y ∈ x.list v, 0 < insertCompareVmarea area (x.areas y)) :
    x'.list v = x.list v ++ [a] := by
  obtain ⟨l, r, -, h1, h2⟩ := hm.split
  rw [h1, ← h2, SearchTree.toList_add_last (by rwa [hlist]), hlist]

theorem nodup (hm : x.Linked x' v a area) (h : x.VmInv) (hv : v ∈ x.live .vma) :
    (x'.list v).Nodup := by
  obtain ⟨l, r, hl, hl', -⟩ := hm.split
  have hnd := (h.listed v hv).nodup
  have hna : a ∉ x.list v := fun ha => hm.fresh (h.mem_live hv ha)
  rw [hl] at hnd hna
  rw [hl', List.nodup_middle, List.nodup_cons]
  exact ⟨hna, hnd⟩

/-- The live areas are those of the list and those of the other address spaces. -/
theorem live_iff (hm : x.Linked x' v a area) (h : x.VmInv) (hv : v ∈ x.live .vma) :
    b ∈ x'.live .vmaArea ↔ b ∈ x'.list v ∨ b ∈ x.live .vmaArea ∧ b ∉ x.list v := by
  rw [hm.live_insert, Finset.mem_insert, hm.mem_list]
  constructor
  · rintro (rfl | hb)
    · exact .inl (.inl rfl)
    · by_cases hbl : b ∈ x.list v
      · exact .inl (.inr hbl)
      · exact .inr ⟨hb, hbl⟩
  · rintro ((rfl | hb) | ⟨hb, -⟩)
    · exact .inl rfl
    · exact .inr (h.mem_live hv hb)
    · exact .inr hb

/-- The new area is one that the callbacks accept. -/
theorem areaOk_self (hm : x.Linked x' v a area) (hr : x.Request area)
    (hout : area.vmarTyp ≠ .kernel → ∀ w, area.Covers w → ¬ kernelPos L w) :
    AreaOk x'.mem (x'.areas a) := by
  rw [hm.made]
  refine ⟨hr.va_aligned, hr.pa_aligned, hr.size_aligned, hr.size_pos, hr.va_lt, hr.pa_lt,
    hr.size_lt, hm.unbacked, fun ht => ?_, fun ht => ?_, hout⟩
  · obtain ⟨p, o, hp, -, ho, h1, h2, -⟩ := hm.backed ht
    exact ⟨p, o, hp, ho, h1, h2⟩
  · have hnone := hm.unbacked (by rw [show area.vmarTyp = .kernel from ht]; decide)
    rw [hnone]
    have hpg := hr.pgfm
    obtain ⟨ty, va, size, pa, pg, prot⟩ := area
    cases hpg
    exact hr.kernel ht

/-- The counters are right: the block of the new area counts one more, the others back the areas
they backed. -/
theorem refCount (hm : x.Linked x' v a area) (h : x.VmInv)
    (hp : (x'.mem.pages p).pgtype = .vmaArea) :
    (x'.mem.pages p).refCount = (x'.backed (x'.live .vmaArea) p).card := by
  obtain ⟨o, ho⟩ := h.spaces.backs p (hm.types p hp)
  have hsame : x'.backed (x.live .vmaArea) p = x.backed (x.live .vmaArea) p :=
    backed_congr (fun b hb => hm.areas b (hm.ne_of_live hb)) p
  have htyp : (x'.areas a).vmarTyp = area.vmarTyp := by rw [hm.made]
  have hins : x'.backed (x'.live .vmaArea) p = if (x'.areas a).vmarTyp = .memory ∧
      (x'.areas a).pgfm = some p then insert a (x.backed (x.live .vmaArea) p)
      else x.backed (x.live .vmaArea) p := by
    rw [← hsame, hm.live_insert]
    exact Finset.filter_insert _ _ _
  have hna : a ∉ x.backed (x.live .vmaArea) p :=
    fun ha => hm.fresh (Finset.mem_filter.1 ha).1
  by_cases he : (x'.areas a).pgfm = some p
  · have ht : area.vmarTyp = .memory := by
      by_contra hne
      rw [hm.unbacked hne] at he
      cases he
    obtain ⟨q, o', hq, -, -, -, -, href⟩ := hm.backed ht
    rw [he] at hq
    cases hq
    rw [hins, if_pos ⟨by rw [htyp, ht], he⟩, Finset.card_insert_of_notMem hna, href,
      h.refCount p ho.type]
    push_cast
    rfl
  · rw [hins, if_neg fun hc => he hc.2, (hm.others p o ho he).pages]
    exact h.refCount p ho.type

theorem inv (hm : x.Linked x' v a area) (h : x.VmInv)
    (hv : v ∈ x.live .vma) (hr : x.Request area)
    (hout : area.vmarTyp ≠ .kernel → ∀ w, area.Covers w → ¬ kernelPos L w) :
    x'.VmInv := by
  refine h.step hm.frame hv ⟨hm.toList, hm.nodup h hv⟩ hm.spaces (fun w hw _ => hm.roots w hw)
    (fun b => hm.live_iff h hv) (fun b hb => ?_) (fun b hb => ?_) fun p hp => hm.refCount h hp
  · rcases hm.mem_list.1 hb with rfl | hb
    · exact .inr hm.fresh
    · exact .inl hb
  · rw [hm.live_insert, Finset.mem_insert] at hb
    rcases hb with rfl | hb
    · exact hm.areaOk_self hr hout
    · rw [hm.areas b (hm.ne_of_live hb)]
      exact (h.areaOk b hb).mono fun p o _ hp => hm.backs hp

end Linked

theorem Refused.sameSpace (hr : x.Refused x' v) (h : x.VmInv) (hw : w ∈ x.live .vma) :
    x.SameSpace x' w := by
  by_cases hwv : w = v
  · rw [hwv] at hw ⊢
    exact ⟨hr.list, fun a ha => hr.areas a (h.mem_live hw ha), hr.entries⟩
  · exact ⟨hr.frame.list hwv, fun a ha => hr.areas a (h.mem_live hw ha),
      .of_eq fun u hu => hr.frame.entry w hw hwv u hu⟩

theorem Refused.referenced (hr : x.Refused x' v) (href : x.Referenced) : x'.Referenced := by
  intro p hp
  obtain ⟨a, ha, h1, h2⟩ := href p (hr.kept.types p hp)
  exact ⟨a, by rw [hr.live]; exact ha, by rw [hr.areas a ha]; exact h1,
    by rw [hr.areas a ha]; exact h2⟩

/-! ### One area more -/

/-- An address space has one area more. -/
structure Added (x x' : VmState A) (v a : ℕ) (area : VmaArea) : Prop where
  inv : x'.VmInv
  referenced : x.Referenced → x'.Referenced
  frame : x.Frame x' v
  fresh : a ∉ x.live .vmaArea
  live : x'.live .vmaArea = insert a (x.live .vmaArea)
  inTheWay : x.inTheWay v area = none
  split : ∃ l r, x.list v = l ++ r ∧ x'.list v = l ++ a :: r ∧ ((x.vmas v).aRoot.add
    (fun node => insertCompareVmarea area (x.areas node)) a).2.toList = l ++ a :: r
  areas : ∀ b, b ≠ a → x'.areas b = x.areas b
  made : x'.areas a = { area with pgfm := (x'.areas a).pgfm }
  wrote : ∀ w < tableSpan, area.Covers w →
    (∀ e, PteValid e → x.entry v w ≠ some e) ∧ x'.entry v w = some (area.pte w)
  rest : ∀ w < tableSpan, ¬ area.Covers w →
    x'.entry v w = x.entry v w ∨ x.entry v w = none ∧ x'.entry v w = some 0
  backs : ∀ p o, x.mem.BacksAreas p o → x'.mem.BacksAreas p o
  words : ∀ p o, x.mem.BacksAreas p o → ∀ q ∈ pagesOf p o, x'.mem.words q = x.mem.words q

theorem Mapped.added (hm : x.Mapped x' v a area) (h : x.VmInv) (hv : v ∈ x.live .vma)
    (hr : x.Request area) (hway : x.inTheWay v area = none)
    (hout : area.vmarTyp ≠ .kernel → ∀ w, area.Covers w → ¬ kernelPos L w) :
    x.Added x' v a area where
  inv := hm.inv h hv hr hout
  referenced href p hp := by
    obtain ⟨b, hb, h1, h2⟩ := href p (hm.types p hp)
    have hba : b ≠ a := fun he => hm.fresh (he ▸ hb)
    refine ⟨b, ?_, by rw [hm.areas b hba]; exact h1, by rw [hm.areas b hba]; exact h2⟩
    rw [hm.live, Function.update_self]
    exact Finset.mem_insert_of_mem hb
  frame := hm.frame
  fresh := hm.fresh
  live := by rw [hm.live, Function.update_self]
  inTheWay := hway
  split := hm.split
  areas := hm.areas
  made := hm.made
  wrote w hw hc := by
    obtain ⟨h1, h2⟩ := hm.wrote w hw hc
    exact ⟨fun e hv he => h1 ⟨e, he, hv⟩, h2⟩
  rest := hm.rest
  backs _ _ := hm.backs
  words := hm.words

namespace Added

variable {b : ℕ}

theorem ne_of_live (ha : x.Added x' v a area) (hb : b ∈ x.live .vmaArea) : b ≠ a :=
  fun he => ha.fresh (he ▸ hb)

theorem mem_list (ha : x.Added x' v a area) : b ∈ x'.list v ↔ b = a ∨ b ∈ x.list v := by
  obtain ⟨l, r, hl, hl', -⟩ := ha.split
  rw [hl', hl]
  simp only [List.mem_append, List.mem_cons]
  tauto

theorem areas_live (ha : x.Added x' v a area) (hb : b ∈ x.live .vmaArea) :
    x'.areas b = x.areas b := ha.areas b (ha.ne_of_live hb)

theorem list_cases (ha : x.Added x' v a area) (h : x.VmInv) (hv : v ∈ x.live .vma)
    (hb : b ∈ x'.list v) : b = a ∨ b ∈ x.list v ∧ x'.areas b = x.areas b :=
  (ha.mem_list.1 hb).imp_right fun hbs => ⟨hbs, ha.areas_live (h.mem_live hv hbs)⟩

theorem length_list (ha : x.Added x' v a area) : (x'.list v).length = (x.list v).length + 1 := by
  obtain ⟨l, r, hl, hl', -⟩ := ha.split
  rw [hl', hl, List.length_append, List.length_append, List.length_cons, Nat.add_assoc]

theorem sameSpace (ha : x.Added x' v a area) (h : x.VmInv) (hw : w ∈ x.live .vma) (hne : w ≠ v) :
    x.SameSpace x' w where
  list := ha.frame.list hne
  areas _ hb := ha.areas_live (h.mem_live hw hb)
  entries := .of_eq fun u hu => ha.frame.entry w hw hne u hu

/-- No valid entry is lost. -/
theorem entry_valid (ha : x.Added x' v a area) (hw : w < tableSpan) {e : ℕ} (he : PteValid e) :
    x'.entry v w = some e ↔ x.entry v w = some e ∨ area.Covers w ∧ area.pte w = e := by
  by_cases hc : area.Covers w
  · obtain ⟨h1, h2⟩ := ha.wrote w hw hc
    rw [h2, Option.some.injEq]
    exact ⟨fun h => .inr ⟨hc, h⟩, fun h => h.elim (fun h => absurd h (h1 e he)) And.right⟩
  · rw [or_iff_left fun h => hc h.1]
    rcases ha.rest w hw hc with h1 | ⟨h1, h2⟩
    · rw [h1]
    · rw [h1, h2]
      refine ⟨fun h => ?_, nofun⟩
      cases h
      exact absurd he not_pteValid_zero

end Added

/-- The object of an area that was not mapped after all is freed. -/
theorem Refused.of_free {y : VmState A} (ha : a ∉ x.live .vmaArea)
    (hlive : y.live = Function.update x.live .vmaArea (insert a (x.live .vmaArea)))
    (hkern : y.kernVma = x.kernVma) (hvmas : ∀ w, w ≠ v → y.vmas w = x.vmas w)
    (hpg : (y.vmas v).hwPgtable = (x.vmas v).hwPgtable)
    (hkv : (y.vmas v).kernelVma = (x.vmas v).kernelVma) (hlist : y.list v = x.list v)
    (htree : (y.vmas v).aRoot.toList = (x.vmas v).aRoot.toList)
    (hareas : ∀ b, b ≠ a → y.areas b = x.areas b)
    (hkept : Kept (x.live .vma) x.root x.pin v x.mem y.mem)
    (hent : x.SameEntries y v) (ret : ℤ) :
    ∃ x', y.freeVmaArea a ret = .ok (ret, x') ∧ x.Refused x' v := by
  obtain ⟨x', hx', hat, -, hl⟩ := objFree_some (x := y) (k := .vmaArea) (a := a)
    (by rw [hlive, Function.update_self]; exact Finset.mem_insert_self a _)
  have hlive' : x'.live = x.live := by
    rw [hl, hlive, Function.update_self, Function.update_idem, Finset.erase_insert ha,
      Function.update_eq_self]
  have hkept' : Kept (x.live .vma) x.root x.pin v x.mem x'.mem :=
    hkept.trans (hat.kept hkept.spaces)
  have hframe : x.Frame x' v := by
    refine .of_kept rfl hkept' (by rw [hat.kernVma, hkern]) (by rw [hlive']) (fun w hw => ?_) ?_ ?_
    · rw [hat.vmas, hvmas w hw]
    · rw [hat.vmas, hpg]
    · rw [hat.vmas, hkv]
  refine ⟨x', ?_, hframe, ?_, ?_, hlive', fun b hb => ?_, hkept', ?_⟩
  · unfold freeVmaArea
    rw [hx']
  · rw [hat.list, hlist]
  · rw [hat.vmas, htree]
  · rw [hat.areas, hareas b fun he => ha (he ▸ hb)]
  · refine hent.trans (.of_eq fun w _ => ?_)
    unfold entry
    rw [hat.root, hat.leaf]

theorem Refused.of_at (h : x.VmInv) (hat : x.AtAllocators x')
    (hlive : x'.live = x.live) : x.Refused x' v where
  frame := .of_kept rfl (hat.kept h.spaces) hat.kernVma (by rw [hlive])
    (fun w _ => by rw [hat.vmas]) (by rw [hat.vmas]) (by rw [hat.vmas])
  list := by rw [hat.list]
  toList := by rw [hat.vmas]
  live := hlive
  areas a _ := by rw [hat.areas]
  kept := hat.kept h.spaces
  entries := .of_eq fun w _ => by
    unfold entry
    rw [hat.root, hat.leaf]

/-- The state in which the object `a` has been taken for the area and hung. -/
structure Hung (x y : VmState A) (v a : ℕ) (area : VmaArea) (l r : List ℕ) (root : SearchTree ℕ) :
    Prop where
  fresh : a ∉ x.live .vmaArea
  live : y.live = Function.update x.live .vmaArea (insert a (x.live .vmaArea))
  kernVma : y.kernVma = x.kernVma
  vma : y.vmas v = { x.vmas v with aRoot := root, lList := l ++ a :: r }
  vmas : ∀ w, w ≠ v → y.vmas w = x.vmas w
  made : y.areas a = area
  areas : ∀ b, b ≠ a → y.areas b = x.areas b
  mem : y.mem = (x.objAlloc .vmaArea).2.mem
  kept : Kept (x.live .vma) x.root x.pin v x.mem y.mem
  leaf : ∀ w, y.mem.leaf 2 (x.root v) w = x.mem.leaf 2 (x.root v) w
  list : x.list v = l ++ r
  toList : root.toList = l ++ a :: r
  add : ((x.vmas v).aRoot.add
    (fun node => insertCompareVmarea area (x.areas node)) a).2.toList = l ++ a :: r

/-- Taking and hanging an object. -/
theorem hung_cases (h : x.VmInv) (hv : v ∈ x.live .vma) {y : VmState A}
    (ho : x.objAlloc .vmaArea = (some a, y)) (area : VmaArea) (needHwmap : Bool) :
    (x.inTheWay v area ≠ none ∧ ∃ x', (y.setArea a area).mmapArea v a area.vmarTyp needHwmap =
      .ok (-eexist, x') ∧ x.Refused x' v) ∨
    (x.inTheWay v area = none ∧ ∃ z l r root, x.Hung z v a area l r root ∧
      (y.setArea a area).mmapArea v a area.vmarTyp needHwmap =
        if needHwmap then
          match hwMapCallbacks area.vmarTyp z v a with
          | .error e => .error e
          | .ok (ret, z) =>
            if ret ≠ 0 then (z.vmaAreaUnhang v a).freeVmaArea a ret else .ok (0, z)
        else .ok (0, z)) := by
  obtain ⟨hat, -, hfresh, hlive⟩ := objAlloc_some ho
  have harea : (y.setArea a area).areas a = area :=
    Function.update_self (β := fun _ => VmaArea) _ _ _
  have hother : ∀ b, b ≠ a → (y.setArea a area).areas b = x.areas b := by
    intro b hb
    show Function.update y.areas a area b = _
    rw [Function.update_of_ne hb, hat.areas]
  have hvmas : (y.setArea a area).vmas = x.vmas := hat.vmas
  have hlist : (y.setArea a area).list v = x.list v := by rw [list, hvmas, list]
  have hkept : Kept (x.live .vma) x.root x.pin v x.mem (y.setArea a area).mem := hat.kept h.spaces
  have hna : a ∉ x.list v := fun ha => hfresh (h.mem_live hv ha)
  have hnodes : ∀ b ∈ (x.vmas v).aRoot.toList, (y.setArea a area).areas b = x.areas b := by
    intro b hb
    rw [(h.listed v hv).toList] at hb
    exact hother b fun he => hna (he ▸ hb)
  have hway : (y.setArea a area).inTheWay v ((y.setArea a area).areas a) = x.inTheWay v area := by
    unfold inTheWay
    rw [harea, hvmas]
    exact SearchTree.find_congr fun b hb => by rw [hnodes b hb]
  unfold mmapArea
  by_cases hnone : x.inTheWay v area = none
  · right
    have hlisted : (y.setArea a area).Listed v := (h.listed v hv).congr (by rw [hvmas])
    obtain ⟨l, r, root, hl, hadd, hroot, hhang⟩ := hlisted.hang (by rwa [hlist])
      (by rw [hway, hnone])
    rw [hhang]
    dsimp only
    rw [if_neg (not_not.2 rfl)]
    refine ⟨hnone, (y.setArea a area).setVma v { (y.setArea a area).vmas v with
      aRoot := root, lList := l ++ a :: r }, l, r, root, ⟨hfresh, hlive, hat.kernVma, ?_,
      fun w hw => ?_, harea, hother, by rw [ho]; rfl, hkept,
      fun w => hat.leaf 2 _ w, by rw [← hlist, hl], hroot,
      ?_⟩, rfl⟩
    · refine (Function.update_self (β := fun _ => Vma) v _ _).trans ?_
      rw [hvmas]
    · refine (Function.update_of_ne (β := fun _ => Vma) hw _ _).trans ?_
      rw [hvmas]
    · rw [← hadd, harea, hvmas]
      congr 2
      exact SearchTree.add_congr fun b hb => by rw [hnodes b hb]
  · left
    rw [hang_refused (by rwa [hway])]
    dsimp only
    rw [if_pos (by decide)]
    have hent : ∀ w < tableSpan, (y.setArea a area).entry v w = x.entry v w := by
      intro w _
      unfold entry VmState.root
      rw [hvmas]
      exact hat.leaf 2 _ w
    obtain ⟨x', hx', href⟩ := Refused.of_free (y := y.setArea a area) (v := v) hfresh hlive
      hat.kernVma (fun w _ => by rw [hvmas]) (by rw [hvmas]) (by rw [hvmas]) hlist
      (by rw [hvmas]) hother hkept (.of_eq hent) (-eexist)
    exact ⟨hnone, x', hx', href⟩

namespace Hung

variable {y : VmState A} {l r : List ℕ} {tree : SearchTree ℕ} {m : Memory A.toPageAllocator}

theorem root_eq (hh : x.Hung y v a area l r tree) : y.root v = x.root v := by
  unfold VmState.root
  rw [hh.vma]

/-- There was no memory for a table: the area is taken out again. -/
theorem refused (hh : x.Hung y v a area l r tree) (h : x.VmInv)
    (hv : v ∈ x.live .vma) (hstep : TableStep (x.pin v) y.mem m 2 (x.root v) 0)
    (htrans : SameTrans y.mem m (x.root v)) (ret : ℤ) :
    ∃ x', ((y.withMem m).vmaAreaUnhang v a).freeVmaArea a ret = .ok (ret, x') ∧
      x.Refused x' v := by
  have hu : ((y.withMem m).vmaAreaUnhang v a).vmas v = { x.vmas v with
      lList := (l ++ a :: r).erase a, aRoot := A.nodeErase tree a } := by
    refine (Function.update_self (β := fun _ => Vma) v _ _).trans ?_
    show { y.vmas v with
      lList := (y.vmas v).lList.erase a, aRoot := A.nodeErase (y.vmas v).aRoot a } = _
    rw [hh.vma]
  have herase : (l ++ a :: r).erase a = l ++ r := by
    have hna : a ∉ x.list v := fun ha => hh.fresh (h.mem_live hv ha)
    rw [hh.list] at hna
    rw [List.erase_append_right _ fun ha => hna (List.mem_append_left _ ha),
      List.erase_cons_head]
  have hroot : ((y.withMem m).vmaAreaUnhang v a).root v = x.root v := by
    unfold VmState.root
    rw [hu]
  refine Refused.of_free (y := (y.withMem m).vmaAreaUnhang v a) hh.fresh ?_ hh.kernVma
    (fun w hw => ?_) (by rw [hu]) (by rw [hu]) ?_ ?_ hh.areas
    (hh.kept.trans (.of_tableStep hh.kept.spaces hv hstep)) ?_ ret
  · rw [← hh.live]
    exact live_evolves hstep.buddy
  · refine (Function.update_of_ne (β := fun _ => Vma) hw _ _).trans ?_
    exact hh.vmas w hw
  · unfold VmState.list
    rw [hu]
    show (l ++ a :: r).erase a = _
    rw [herase, ← hh.list]
    rfl
  · rw [hu]
    show (A.nodeErase tree a).toList = _
    rw [A.toList_nodeErase, hh.toList, herase, (h.listed v hv).toList, hh.list]
  · intro w hw e he
    unfold entry
    rw [hroot, ← hh.leaf w]
    exact htrans w hw e he

/-- Only tables are taken from the free pages. -/
theorem conserve (hh : x.Hung y v a area l r tree)
    (hstep : TableStep (x.pin v) y.mem m 2 (x.root v) 0) (q : ℕ) :
    q ∈ m.freePages ∨ q ∈ m.tables 2 (x.root v) ↔
      q ∈ (x.objAlloc .vmaArea).2.mem.freePages ∨ q ∈ x.mem.tables 2 (x.root v) := by
  rw [hstep.conserve, hh.mem]
  rfl

/-- What is in the page table then. -/
theorem wrote (hh : x.Hung y v a area l r tree) (hent : Entered y.mem m (x.root v) area)
    (hentry : ∀ w, x'.entry v w = m.leaf 2 (x.root v) w) {w : ℕ} (hw : w < tableSpan)
    (hc : area.Covers w) :
    ¬ x.mem.ValidAt 2 (x.root v) w ∧ x'.entry v w = some (area.pte w) := by
  obtain ⟨h1, h2⟩ := hent.wrote w hw hc
  refine ⟨?_, (hentry w).trans h2⟩
  rintro ⟨e, he, hve⟩
  exact h1 ⟨e, (hh.leaf w).trans he, hve⟩

theorem rest (hh : x.Hung y v a area l r tree) (hent : Entered y.mem m (x.root v) area)
    (hentry : ∀ w, x'.entry v w = m.leaf 2 (x.root v) w) {w : ℕ} (hw : w < tableSpan)
    (hc : ¬ area.Covers w) :
    x'.entry v w = x.entry v w ∨ x.entry v w = none ∧ x'.entry v w = some 0 := by
  have h := hent.rest w hw hc
  rw [hh.leaf] at h
  rw [hentry]
  exact h

/-- The area is in the tree and the list, and no block backs it. -/
theorem linked (hh : x.Hung y v a area l r tree) (hr : x.Request area) (hv : v ∈ x.live .vma)
    (ht : area.vmarTyp ≠ .memory) (hstep : TableStep (x.pin v) y.mem m 2 (x.root v) 0) :
    x.Linked (y.withMem m) v a area := by
  have hkept : Kept (x.live .vma) x.root x.pin v x.mem m :=
    hh.kept.trans (.of_tableStep hh.kept.spaces hv hstep)
  have hlive : (y.withMem m).live = y.live := live_evolves hstep.buddy
  refine ⟨?_, hh.fresh, by rw [hlive, hh.live], ?_, ⟨l, r, hh.list, ?_, hh.add⟩, hh.areas, ?_,
    hkept.spaces, fun w hw => hkept.blocks_root hw, hkept.types, fun p o hp _ => hkept.backs p o hp,
    fun _ => ?_, fun ht' => absurd ht' ht, hkept.words⟩
  · refine .of_kept rfl hkept hh.kernVma (by rw [hlive, hh.live]; rfl) hh.vmas ?_ ?_
    · show (y.vmas v).hwPgtable = _
      rw [hh.vma]
    · show (y.vmas v).kernelVma = _
      rw [hh.vma]
  · show (y.vmas v).aRoot.toList = (y.vmas v).lList
    rw [hh.vma, hh.toList]
  · show (y.vmas v).lList = _
    rw [hh.vma]
  · show y.areas a = { area with pgfm := (y.areas a).pgfm }
    rw [hh.made]
  · show (y.areas a).pgfm = none
    rw [hh.made, hr.pgfm]

/-- It is also in the page table. -/
theorem mapped (hh : x.Hung y v a area l r tree) (hr : x.Request area) (hv : v ∈ x.live .vma)
    (ht : area.vmarTyp ≠ .memory) (hstep : TableStep (x.pin v) y.mem m 2 (x.root v) 0)
    (hent : Entered y.mem m (x.root v) area) : x.Mapped (y.withMem m) v a area := by
  have hentry : ∀ w, (y.withMem m).entry v w = m.leaf 2 (x.root v) w := by
    intro w
    rw [← hh.root_eq]
    rfl
  exact ⟨hh.linked hr hv ht hstep, hh.conserve hstep, fun w hw hc => hh.wrote hent hentry hw hc,
    fun w hw hc => hh.rest hent hentry hw hc⟩

/-- The area is in the page table, and block `p` backs it. -/
theorem mapped_memory (hh : x.Hung y v a area l r tree) (h : x.VmInv)
    (hv : v ∈ x.live .vma) (ht : area.vmarTyp = .memory) {o : ℕ} (hp : y.mem.BacksAreas p o)
    (hpa : area.pa = L.pg2pa p) (hsize : area.size = 2 ^ o * pageSize)
    (hstep : TableStep (x.pin v) y.mem m 2 (x.root v) 0)
    (hent : Entered y.mem m (x.root v) area) :
    x.Mapped ((y.withMem m).referenced a p) v a area := by
  have hkept : Kept (x.live .vma) x.root x.pin v x.mem m :=
    hh.kept.trans (.of_tableStep hh.kept.spaces hv hstep)
  have hpx : x.mem.BacksAreas p o := (hh.kept.backs_iff h.spaces).1 hp
  have hpm : m.BacksAreas p o := hpx.untouched (hkept.backs p o hpx)
  have hlive : ((y.withMem m).referenced a p).live = y.live := live_evolves hstep.buddy
  obtain ⟨hsp, hpm', hu⟩ := hkept.spaces.setRef hpm ((m.pages p).refCount + 1) rfl
  have hpg : ((y.withMem m).referenced a p).areas a = { y.areas a with pgfm := some p } :=
    Function.update_self (β := fun _ => VmaArea) _ _ _
  have hareas : ∀ b, b ≠ a → ((y.withMem m).referenced a p).areas b = x.areas b := by
    intro b hb
    refine (Function.update_of_ne (β := fun _ => VmaArea) hb _ _).trans ?_
    exact hh.areas b hb
  have hpage : ((y.withMem m).referenced a p).mem.pages p =
      { m.pages p with refCount := (m.pages p).refCount + 1 } :=
    Function.update_self (β := fun _ => Pageframe) _ _ _
  have hleaf : ∀ u w, ((y.withMem m).referenced a p).mem.leaf 2 u w = m.leaf 2 u w :=
    fun _ _ => rfl
  have hentry : ∀ w, ((y.withMem m).referenced a p).entry v w = m.leaf 2 (x.root v) w := by
    intro w
    rw [← hh.root_eq]
    rfl
  refine ⟨⟨⟨hh.kernVma, by rw [hlive, hh.live]; rfl, hh.vmas, ?_, ?_, fun w hw hne u hu => ?_⟩,
    hh.fresh, by rw [hlive, hh.live], ?_, ⟨l, r, hh.list, ?_, hh.add⟩, hareas, ?_, hsp,
    fun w hw => hkept.blocks_root hw, fun q hq => ?_, fun q k hq hne => ?_,
    fun ht' => absurd ht ht', fun _ => ?_, hkept.words⟩,
    fun q => hh.conserve (m := m) hstep q, fun w hw hc => hh.wrote hent hentry hw hc,
    fun w hw hc => hh.rest hent hentry hw hc⟩
  · show (y.vmas v).hwPgtable = _
    rw [hh.vma]
  · show (y.vmas v).kernelVma = _
    rw [hh.vma]
  · have hrw : ((y.withMem m).referenced a p).root w = x.root w := by
      unfold VmState.root
      show Option.getD (y.vmas w).hwPgtable 0 = _
      rw [hh.vmas w hne]
    unfold entry
    rw [hrw, hleaf]
    exact leaf_untouched (hkept.others w hw hne) hu
  · show (y.vmas v).aRoot.toList = (y.vmas v).lList
    rw [hh.vma, hh.toList]
  · show (y.vmas v).lList = _
    rw [hh.vma]
  · rw [hpg, hh.made]
  · by_cases hqp : q = p
    · rw [hqp]
      exact hpx.type
    · refine hkept.types q ?_
      rwa [show ((y.withMem m).referenced a p).mem.pages q = m.pages q from
        Function.update_of_ne (β := fun _ => Pageframe) hqp _ _] at hq
  · have hqp : q ≠ p := by
      rintro rfl
      exact hne (by rw [hpg])
    have hqm := hkept.backs q k hq
    exact hqm.trans (hu q hqp hqm.notMem)
  · refine ⟨p, o, by rw [hpg], hpx, hpm', hpa, hsize, ?_⟩
    rw [hpage, (hkept.backs p o hpx).pages]

end Hung

/-- The tree takes an area that is in the way of a valid entry of the page table. -/
def Collides (x : VmState A) (v : ℕ) (area : VmaArea) : Prop :=
  x.inTheWay v area = none ∧ ∃ w < tableSpan, area.Covers w ∧ x.mem.ValidAt 2 (x.root v) w

/-- Which `ASSERT` the mapping of an area can fail: the number of pages is no `int`, or the
page table has an entry in its way. -/
def Stops (x : VmState A) (v : ℕ) (area : VmaArea) (e : VmAssert) : Prop :=
  e = .callee ∧ toInt32 (area.size / pageSize) < 0 ∨ e = .eexist ∧ x.Collides v area

theorem Stops.ne_block {e : VmAssert} (h : x.Stops v area e) : e ≠ .block := by
  rcases h with ⟨rfl, -⟩ | ⟨rfl, -⟩ <;> decide

theorem Stops.collides {e : VmAssert} (h : x.Stops v area e) (he : e = .eexist) :
    x.Collides v area := by
  rcases h with ⟨rfl, -⟩ | ⟨-, hc⟩
  · cases he
  · exact hc

/-- `__vm_mmap` of an area into an address space. -/
theorem vmMmapInternal_cases (h : x.VmInv) (hv : v ∈ x.live .vma)
    (hr : x.Request area) :
    (∃ e, x.vmMmapInternal v area.va area.pa area.prot area.size area.vmarTyp true = .error e ∧
      x.Stops v area e) ∨
    (∃ ret x', x.vmMmapInternal v area.va area.pa area.prot area.size area.vmarTyp true =
        .ok (ret, x') ∧ (ret = -enobufs ∧ (x.objAlloc .vmaArea).1 = none ∨
          (x.objAlloc .vmaArea).1 ≠ none ∧ (ret = -eexist ∧ x.inTheWay v area ≠ none ∨
            ret = -enomem ∧ x.inTheWay v area = none ∧
              (x.objAlloc .vmaArea).2.mem.Exhausts (x.pin v) (x.root v) ∧
              ∃ w < tableSpan, area.Covers w ∧ x.entry v w = none)) ∧ x.Refused x' v) ∨
    ∃ a x', x.vmMmapInternal v area.va area.pa area.prot area.size area.vmarTyp true =
        .ok (0, x') ∧ (x.objAlloc .vmaArea).1 ≠ none ∧ x.inTheWay v area = none ∧
        x.Mapped x' v a area := by
  unfold vmMmapInternal
  rw [if_pos ⟨h.ne_zero hv, hr.size_pos, hr.va_aligned, hr.pa_aligned, hr.size_aligned⟩]
  rcases ho : x.objAlloc .vmaArea with ⟨_ | a, y⟩
  · obtain ⟨hat, hlive⟩ := objAlloc_none ho
    exact .inr (.inl ⟨-enobufs, y, rfl, .inl ⟨rfl, rfl⟩, .of_at h hat hlive⟩)
  have hrec : (⟨area.vmarTyp, area.va, area.size, area.pa, none, area.prot⟩ : VmaArea) = area := by
    rw [← hr.pgfm]
  dsimp only
  rw [hrec]
  rcases hung_cases h hv ho area true with ⟨hway, x', hx', href⟩ | ⟨hway, z, l, r, tree, hh, heq⟩
  · exact .inr (.inl ⟨_, x', hx', .inr ⟨by simp, .inl ⟨rfl, hway⟩⟩, href⟩)
  rw [heq, if_pos rfl]
  have hr' : z.Request (z.areas a) := by
    rw [hh.made]
    refine { hr with backed := fun ht => ?_ }
    obtain ⟨p, o, hp, h1, h2⟩ := hr.backed ht
    exact ⟨p, o, hp.untouched (hh.kept.backs p o hp), h1, h2⟩
  have hcb := mapCallback_cases (x := z) (a := a) hh.kept.spaces hv
    (by rw [hh.vma]; exact h.hwPgtable v hv) hr'
  rw [hh.made] at hcb
  rcases hcb with ⟨e, he, hwhy⟩ | ⟨m, hstep, ⟨hok, htrans, hex, w, hw, hc, hnone⟩ | ⟨hent, hok⟩⟩
  · rw [he]
    refine .inl ⟨e, rfl, hwhy.imp_right ?_⟩
    rintro ⟨hee, w, hw, hc, e', he', hve⟩
    exact ⟨hee, hway, w, hw, hc, e', (hh.leaf w).symm.trans he', hve⟩
  · rw [hok]
    dsimp only
    rw [if_pos (by decide)]
    obtain ⟨x', hx', href⟩ := hh.refused h hv hstep htrans (-enomem)
    rw [hh.mem, ho] at hex
    exact .inr (.inl ⟨_, x', hx', .inr ⟨by simp, .inr ⟨rfl, hway, hex, w, hw, hc,
      (hh.leaf w).symm.trans hnone⟩⟩, href⟩)
  · right; right
    rcases hok with ⟨ht, hok⟩ | ⟨ht, p, o, hp, hpa, hsize, hok⟩
    · rw [hok]
      dsimp only
      rw [if_neg (not_not.2 rfl)]
      exact ⟨a, _, rfl, by simp, hway, hh.mapped hr hv ht hstep hent⟩
    · rw [hok]
      dsimp only
      rw [if_neg (not_not.2 rfl)]
      exact ⟨a, _, rfl, by simp, hway, hh.mapped_memory h hv ht hp hpa hsize hstep hent⟩

end VmState

end AcoOs
