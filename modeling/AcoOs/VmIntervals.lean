/-
The areas of an address space as a set of intervals.

What an address space is for: a set of intervals that are apart, each with a physical address,
permissions and a type.  `__vm_mmap` adds one to the set or refuses it because it meets one that is
there, and `__vm_unmap` takes one out that it is given exactly.  The comparisons behind them look at
one node of the tree at a time, and they are right as long as no area wraps around.

* **`area_operations`** — both refine the operations on the set, in every run in which no request
  wraps around;
* **`not_area_operations`** — an area that ends with the address space compares as smaller than
  every other one, and hides what a rotation brings to its left.
-/
import AcoOs.AvlTree
import AcoOs.VmCollide

namespace AcoOs

open Memory

variable {L : VmLayout} {A : VmEnv L} {area : VmaArea}

/-! ### Sets of intervals -/

/-- An interval of addresses with what is mapped there. -/
structure Interval where
  va : ℕ
  size : ℕ
  pa : ℕ
  prot : ℕ
  typ : VmarType

namespace Interval

/-- The intervals have an address in common. -/
def Meets (i j : Interval) : Prop := i.va < j.va + j.size ∧ j.va < i.va + i.size

/-- The interval has this range. -/
def HasRange (i : Interval) (va size : ℕ) : Prop := i.va = va ∧ i.size = size

end Interval

/-- The interval of an area. -/
def VmaArea.interval (area : VmaArea) : Interval :=
  ⟨area.va, area.size, area.pa, area.prot, area.vmarTyp⟩

namespace VmState

variable {x x' y z s : VmState A} {v w u a b p o : ℕ} {call : VmCall}

/-- The intervals of an address space. -/
def intervals (x : VmState A) (v : ℕ) : Set Interval :=
  {i | ∃ a ∈ x.list v, (x.areas a).interval = i}

theorem SameSpace.intervals (h : x.SameSpace x' v) : x'.intervals v = x.intervals v := by
  refine Set.ext fun i => ?_
  unfold VmState.intervals
  rw [Set.mem_ofPred_eq, Set.mem_ofPred_eq, h.list]
  refine exists_congr fun a => and_congr_right fun ha => ?_
  rw [h.areas a ha]

/-- The intervals of a sorted address space are apart. -/
theorem Sorted.intervals_apart (h : x.Sorted v) :
    (x.intervals v).Pairwise fun i j => ¬ i.Meets j := by
  rintro i ⟨a, ha, rfl⟩ j ⟨b, hb, rfl⟩ hij
  exact h.not_overlaps ha hb fun hab => hij (hab ▸ rfl)

/-! ### What a call does to the set -/

/-- An area that has been linked is one interval more. -/
theorem Linked.intervals (hl : x.Linked x' v a area) (h : x.VmInv) (hv : v ∈ x.live .vma) :
    x'.intervals v = insert area.interval (x.intervals v) := by
  obtain ⟨l, r, h1, h2, -⟩ := hl.split
  have hold : ∀ b ∈ x.list v, x'.areas b = x.areas b := fun b hb =>
    hl.areas b fun hba => hl.fresh (hba ▸ h.mem_live hv hb)
  have hnew : (x'.areas a).interval = area.interval := by
    rw [hl.made]
    rfl
  refine Set.ext fun i => ?_
  rw [Set.mem_insert_iff]
  have hmem : ∀ b, b ∈ x'.list v ↔ b = a ∨ b ∈ x.list v := fun b => by
    rw [h1, h2, List.mem_append, List.mem_append, List.mem_cons]
    exact or_left_comm
  constructor
  · rintro ⟨b, hb, rfl⟩
    rcases (hmem b).1 hb with rfl | hb
    · exact .inl hnew
    · exact .inr ⟨b, hb, by rw [hold b hb]⟩
  · rintro (rfl | ⟨b, hb, rfl⟩)
    · exact ⟨a, (hmem a).2 (.inl rfl), hnew⟩
    · exact ⟨b, (hmem b).2 (.inr hb), by rw [hold b hb]⟩

/-- An area that has been removed is one interval less. -/
theorem Removed.intervals (hr : x.Removed x' v a) (h : x.VmInv) (hv : v ∈ x.live .vma)
    (hs : x.Sorted v) (ha : a ∈ x.list v) :
    x'.intervals v = x.intervals v \ {(x.areas a).interval} := by
  refine Set.ext fun i => ?_
  rw [Set.mem_sdiff, Set.mem_singleton_iff]
  constructor
  · rintro ⟨b, hb, rfl⟩
    obtain ⟨hba, hb⟩ := (mem_list_of_removed hr h hv).1 hb
    rw [hr.areas b hba]
    refine ⟨⟨b, hb, rfl⟩, fun hi => hba ?_⟩
    exact hs.eq_of_range (h.listed v hv) hb ha (h.list_ok hv hb).size_pos
      (congrArg Interval.va hi) (congrArg Interval.size hi)
  · rintro ⟨⟨b, hb, rfl⟩, hne⟩
    have hba : b ≠ a := fun hba => hne (hba ▸ rfl)
    exact ⟨b, (mem_list_of_removed hr h hv).2 ⟨hba, hb⟩, by rw [hr.areas b hba]⟩

/-! ### The two operations -/

/-- A new area meets no interval exactly when nothing is in its way. -/
theorem Sorted.inTheWay_iff (hs : x.Sorted v) (h : x.VmInv) (hv : v ∈ x.live .vma)
    (hp : area.Plain) :
    x.inTheWay v area = none ↔ ∀ i ∈ x.intervals v, ¬ area.interval.Meets i := by
  rw [hs.inTheWay_eq_none (h.listed v hv) hp]
  constructor
  · rintro hno i ⟨b, hb, rfl⟩
    exact hno b hb
  · exact fun hno b hb => hno _ ⟨b, hb, rfl⟩

/-- `__vm_mmap` refuses an area that meets one that is there, and else adds it or fails. -/
theorem vmMmapInternal_refines (h : x.VmInv) (hv : v ∈ x.live .vma) (hs : x.Sorted v)
    (hr : x.Request area) (hlow : area.Low) :
    ((x.objAlloc .vmaArea).1 ≠ none → ((∃ x', x.vmMmapInternal v area.va area.pa area.prot
      area.size area.vmarTyp true = .ok (-eexist, x')) ↔
        ∃ i ∈ x.intervals v, area.interval.Meets i)) ∧
    ∀ ret x', x.vmMmapInternal v area.va area.pa area.prot area.size area.vmarTyp true =
        .ok (ret, x') →
      (ret = 0 → (∀ i ∈ x.intervals v, ¬ area.interval.Meets i) ∧
        x'.intervals v = insert area.interval (x.intervals v)) ∧
      (ret ≠ 0 → x'.intervals v = x.intervals v) ∧
      ∀ w ∈ x.live .vma, w ≠ v → x'.intervals w = x.intervals w := by
  have hway := hs.inTheWay_iff h hv hlow.plain
  have hmeets : (∃ i ∈ x.intervals v, area.interval.Meets i) ↔ x.inTheWay v area ≠ none := by
    constructor
    · rintro ⟨i, hi, him⟩ hno
      exact hway.1 hno i hi him
    · intro hne
      by_contra hno
      exact hne (hway.2 fun i hi him => hno ⟨i, hi, him⟩)
  rw [hmeets]
  rcases vmMmapInternal_cases h hv hr with ⟨e, he, hst⟩ | ⟨ret, x', he, hwhy, href⟩ |
    ⟨a, x', he, -, hno, hm⟩
  · -- the kernel only stops where nothing is in the way
    have hno : x.inTheWay v area = none := by
      rcases hst with ⟨-, hneg⟩ | ⟨-, hno, -⟩
      · exact absurd hlow.pages (not_le.2 hneg)
      · exact hno
    rw [he]
    exact ⟨fun _ => ⟨fun ⟨_, hc⟩ => (nomatch hc), fun hc => absurd hno hc⟩,
      fun _ _ hc => (nomatch hc)⟩
  · rw [he]
    refine ⟨fun hobj => ?_, fun ret₁ x₁ hc => ?_⟩
    · obtain ⟨-, ⟨rfl, hne⟩ | ⟨rfl, hno, -⟩⟩ := hwhy.resolve_left fun hn => hobj hn.2
      · exact Iff.intro (fun _ => hne) fun _ => ⟨x', rfl⟩
      · refine Iff.intro ?_ fun hc => absurd hno hc
        rintro ⟨_, hc⟩
        exact absurd (Prod.mk.inj (Except.ok.inj hc)).1 (by decide)
    · cases hc
      have hneg : ret ≠ 0 := by
        rcases hwhy with ⟨rfl, -⟩ | ⟨-, ⟨rfl, -⟩ | ⟨rfl, -⟩⟩ <;> decide
      exact ⟨fun h0 => absurd h0 hneg, fun _ => (href.sameSpace h hv).intervals,
        fun w hw _ => (href.sameSpace h hw).intervals⟩
  · rw [he]
    refine ⟨fun _ => Iff.intro ?_ fun hc => absurd hno hc, fun ret₁ x₁ hc => ?_⟩
    · rintro ⟨_, hc⟩
      exact absurd (Prod.mk.inj (Except.ok.inj hc)).1 (by decide)
    cases hc
    refine ⟨fun _ => ⟨hway.1 hno, hm.intervals h hv⟩, fun hc => absurd rfl hc, fun w hw hne => ?_⟩
    have hsame : x.SameSpace x' w :=
      ⟨hm.frame.list hne, fun b hb => hm.areas b fun hba => hm.fresh (hba ▸ h.mem_live hw hb),
        .of_eq fun u hu => hm.frame.entry w hw hne u hu⟩
    exact hsame.intervals

/-- A search finds an interval exactly when there is one with that range. -/
theorem Sorted.findArea_iff (hs : x.Sorted v) (h : x.VmInv) (hv : v ∈ x.live .vma) {va size : ℕ} :
    x.findArea v va size = some a ↔
      a ∈ x.list v ∧ (x.areas a).interval.HasRange va size := by
  have hl := h.listed v hv
  constructor
  · exact fun hf => findArea_some hl hf
  · rintro ⟨ha, rfl, rfl⟩
    exact hs.findArea_self hl ha (h.list_ok hv ha).size_pos

/-- `__vm_unmap` takes out the interval with just that range and type. -/
theorem vmUnmapInternal_refines (h : x.VmInv) (hv : v ∈ x.live .vma) (hs : x.Sorted v)
    {va size : ℕ} {typ : VmarType} (hva : va % pageSize = 0) (hsize : size % pageSize = 0)
    (hpos : 0 < size) (hlow : va + size ≤ 2 ^ 39) (ht : typ ≠ .kernel) :
    ∃ ret x', x.vmUnmapInternal v va size typ = .ok (ret, x') ∧
      (ret = 0 ↔ ∃ i ∈ x.intervals v, i.HasRange va size ∧ i.typ = typ) ∧
      (ret = -eperm ↔ ∃ i ∈ x.intervals v, i.HasRange va size ∧ i.typ ≠ typ) ∧
      (ret = -enobufs ↔ ∀ i ∈ x.intervals v, ¬ i.HasRange va size) ∧
      (ret = 0 → x'.intervals v = x.intervals v \ {i | i.HasRange va size}) ∧
      (ret ≠ 0 → x' = x) ∧ ∀ w ∈ x.live .vma, w ≠ v → x'.intervals w = x.intervals w := by
  -- all intervals with the range are the one that is found
  have hfind : ∀ a, x.findArea v va size = some a → ∀ i ∈ x.intervals v,
      i.HasRange va size → i = (x.areas a).interval := by
    rintro a ha i ⟨b, hb, rfl⟩ hi
    rw [(hs.findArea_iff h hv).2 ⟨hb, hi⟩] at ha
    rw [Option.some.inj ha]
  rcases vmUnmapInternal_cases h hv hva hsize hpos ht with ⟨hf, he⟩ |
    ⟨a, ha, hf, hra, hrs, ⟨hty, he⟩ | ⟨hty, ⟨-, hlt⟩ | ⟨x', he, hr⟩⟩⟩
  · have hnone : ∀ i ∈ x.intervals v, ¬ i.HasRange va size := by
      rintro i ⟨b, hb, rfl⟩ hi
      rw [(hs.findArea_iff h hv).2 ⟨hb, hi⟩] at hf
      cases hf
    refine ⟨_, x, he, ⟨fun h0 => absurd h0 (by decide), ?_⟩, ⟨fun h0 => absurd h0 (by decide), ?_⟩,
      ⟨fun _ => hnone, fun _ => rfl⟩, fun h0 => absurd h0 (by decide), fun _ => rfl,
      fun _ _ _ => rfl⟩
    · rintro ⟨i, hi, hi', -⟩
      exact absurd hi' (hnone i hi)
    · rintro ⟨i, hi, hi', -⟩
      exact absurd hi' (hnone i hi)
  · refine ⟨_, x, he, ⟨fun h0 => absurd h0 (by decide), ?_⟩,
      ⟨fun _ => ⟨_, ⟨a, ha, rfl⟩, ⟨hra, hrs⟩, hty⟩, fun _ => rfl⟩,
      ⟨fun h0 => absurd h0 (by decide), fun hno => absurd ⟨hra, hrs⟩ (hno _ ⟨a, ha, rfl⟩)⟩,
      fun h0 => absurd h0 (by decide), fun _ => rfl, fun _ _ _ => rfl⟩
    rintro ⟨i, hi, hi', hit⟩
    rw [hfind a hf i hi hi'] at hit
    exact absurd hit hty
  · -- the positions of a low area do not wrap
    have hfits : position 2 (x.areas a).va + (x.areas a).size / pageSize ≤ tableSpan :=
      VmaArea.Low.fits
        (show (x.areas a).va + (x.areas a).size ≤ 2 ^ 39 by rw [hra, hrs]; exact hlow)
        (by rw [hra]; exact hva) (by rw [hrs]; exact hpos)
    rw [hra, hrs] at hfits
    omega
  · refine ⟨0, x', he, ⟨fun _ => ⟨_, ⟨a, ha, rfl⟩, ⟨hra, hrs⟩, hty⟩, fun _ => rfl⟩,
      ⟨fun h0 => absurd h0 (by decide), ?_⟩,
      ⟨fun h0 => absurd h0 (by decide), fun hno => absurd ⟨hra, hrs⟩ (hno _ ⟨a, ha, rfl⟩)⟩,
      fun _ => ?_, fun h0 => absurd rfl h0,
      fun w hw hne => (hr.sameSpace h hv ha hw hne).intervals⟩
    · rintro ⟨i, hi, hi', hit⟩
      rw [hfind a hf i hi hi'] at hit
      exact absurd hty hit
    · rw [hr.intervals h hv hs ha]
      refine Set.ext fun i => ?_
      rw [Set.mem_sdiff, Set.mem_sdiff, Set.mem_singleton_iff, Set.mem_ofPred_eq]
      refine and_congr_right fun hi => not_congr ⟨?_, hfind a hf i hi⟩
      rintro rfl
      exact ⟨hra, hrs⟩

/-! ### Within a call -/

/-- The states in which a call comes to `__vm_mmap` or `__vm_unmap`: at once, with a block taken, or
with some areas copied to a new address space. -/
inductive Within (x : VmState A) : VmState A → Prop
  | call : Within x x
  | copying {s y : VmState A} {u v pg : ℕ} {l₁ l₂ : List ℕ} (hu : u ∈ x.live .vma)
      (ho : x.Opened s v pg) (hl : x.list u = l₁ ++ l₂) (hd : Dups v s l₁ true y) : Within x y
  | claimed {y z : VmState A} {p o : ℕ} (hy : Within x y) (hc : y.Claimed z p o) : Within x z

/-- Every address space is sorted. -/
def SortedSpaces (x : VmState A) : Prop := ∀ v ∈ x.live .vma, x.Sorted v

/-- The copies of areas that do not wrap around are sorted. -/
theorem Dups.sorted {l : List ℕ} {ok : Bool} (hd : Dups v x l ok x') (hok : ok = true)
    (hinv : x.VmInv) (hv : v ∈ x.live .vma) (h : x.Sorted v) (hl : ∀ b ∈ l, b ∈ x.live .vmaArea)
    (hplain : ∀ b ∈ l, (x.areas b).Plain) : x'.Sorted v := by
  induction hd with
  | nil => exact h
  | refused => cases hok
  | @copied x y x' a b l ok area hc ha _ hd ih =>
    have hlx : ∀ c ∈ l, c ∈ x.live .vmaArea := fun c hcl => hl c (List.mem_cons_of_mem b hcl)
    have harea : area.Plain := by
      unfold VmaArea.Plain
      rw [hc.va, hc.size]
      exact hplain b List.mem_cons_self
    refine ih hok ha.inv (by rw [ha.frame.liveVma]; exact hv) (h.added hinv hv ha harea)
      (fun c hcl => ha.grown.live (hlx c hcl)) fun c hcl => ?_
    rw [ha.areas_live (hlx c hcl)]
    exact hplain c (List.mem_cons_of_mem b hcl)

/-- The address spaces are sorted while a new one is filled. -/
theorem Opened.sortedSpaces {pg : ℕ} {l₁ l₂ : List ℕ} (ho : x.Opened s v pg)
    (hd : Dups v s l₁ true y) (h : x.Inv) (hall : x.SortedSpaces) (hu : u ∈ x.live .vma)
    (hl : x.list u = l₁ ++ l₂) : y.VmInv ∧ y.SortedSpaces := by
  have hvs : v ∈ s.live .vma := ho.live_iff.2 (.inl rfl)
  have hg := hd.grown ho.inv hvs
  refine ⟨hg.inv, fun w hw => ?_⟩
  rw [hg.frame.liveVma] at hw
  by_cases hwv : w = v
  · have hmem : ∀ b ∈ l₁, b ∈ x.list u := fun b hb => by
      rw [hl]
      exact List.mem_append_left _ hb
    rw [hwv]
    refine hd.sorted rfl ho.inv hvs (.nil ho.list) (fun b hb => ?_) fun b hb => ?_
    · rw [ho.liveAreas]
      exact h.vm.mem_live hu (hmem b hb)
    · rw [ho.areas]
      exact (hall u hu).plain b (hmem b hb)
  · have hwx := (ho.live_iff.1 hw).resolve_left hwv
    exact ((hall w hwx).sameSpace (ho.sameSpace w hwx)).sameSpace (hg.sameSpace ho.inv hw hwv)

theorem Within.sortedSpaces (hw : x.Within y) (h : x.Inv) (hall : x.SortedSpaces) :
    y.VmInv ∧ y.SortedSpaces := by
  induction hw with
  | call => exact ⟨h.vm, hall⟩
  | copying hu ho hl hd => exact ho.sortedSpaces hd h hall hu hl
  | claimed _ hc ih =>
    obtain ⟨hinv, hsort⟩ := ih
    refine ⟨hc.inv hinv, fun v hv => ?_⟩
    rw [hc.live] at hv
    exact (hsort v hv).sameSpace (hc.sameSpace hinv.spaces hv)

theorem Effect.sortedSpaces (he : x.Effect call x') (h : x.Inv) (hall : x.SortedSpaces)
    (hplain : ∀ v area, x.Asks v area call → area.Plain) : x'.SortedSpaces := by
  intro v hv'
  by_cases hv : v ∈ x.live .vma
  · rcases he.space_cases h hv hv' with hs | ⟨a, area, hask, ha⟩ | ⟨a, -, hr⟩
    · exact (hall v hv).sameSpace hs
    · exact (hall v hv).added h.vm hv ha (hplain v area hask)
    · exact (hall v hv).removed h.vm hv hr
  · obtain ⟨u, hu, s, pg, ho, hd⟩ := he.born hv hv'
    exact (ho.sortedSpaces hd h hall hu (List.append_nil _).symm).2 v hv'

/-! ### The tree after `vm_iomap` -/

/-- The tree after `vma_area_hang`. -/
theorem hang_aRoot (hw : x.inTheWay v (x.areas a) = none) : ∃ z, x.vmaAreaHang v a = (0, z) ∧
    (z.vmas v).aRoot = A.postInsert ((x.vmas v).aRoot.add
      (fun node => insertCompareVmarea (x.areas a) (x.areas node)) a).2 a := by
  unfold vmaAreaHang
  unfold inTheWay at hw
  rw [← SearchTree.add_fst (a := a)] at hw
  generalize (x.vmas v).aRoot.add
    (fun node => insertCompareVmarea (x.areas a) (x.areas node)) a = res at hw
  obtain ⟨dup, root⟩ := res
  cases hw
  exact ⟨_, rfl, congrArg Vma.aRoot (Function.update_self (β := fun _ => Vma) _ _ _)⟩

theorem mmapKernelIoHwCb_vmas {ret : ℤ} (h : x.mmapKernelIoHwCb v a = .ok (ret, x')) :
    x'.vmas = x.vmas := by
  unfold mmapKernelIoHwCb hwMmapArea at h
  rcases hpg : (x.vmas v).hwPgtable with _ | pgtable
  · rw [hpg] at h
    cases h
  rw [hpg] at h
  dsimp only at h
  rcases hm : x.mem.hwMmap pgtable (x.areas a).va (x.areas a).pa (x.areas a).prot (x.areas a).size
    with _ | ⟨r, m⟩
  · rw [hm] at h
    cases h
  rw [hm] at h
  dsimp only at h
  split at h
  · cases h
    rfl
  · cases h

/-- The label `free_vma_area` is reached with an error. -/
theorem freeVmaArea_ne {ret : ℤ} (hret : ret ≠ 0) : x.freeVmaArea a ret ≠ .ok (0, x') := by
  intro he
  unfold freeVmaArea at he
  split at he
  · cases he
  · exact hret (Prod.mk.inj (Except.ok.inj he)).1

/-- The object that was linked is the only new one in the list. -/
theorem Linked.eq_of_fresh (hl : x.Linked x' v a area) (h : x.VmInv) (hv : v ∈ x.live .vma)
    (hfresh : b ∉ x.live .vmaArea) (hb : b ∈ x'.list v) : b = a := by
  obtain ⟨l, r, h1, h2, -⟩ := hl.split
  by_contra hne
  rw [h2, List.mem_append, List.mem_cons] at hb
  refine hfresh (h.mem_live hv ?_)
  rw [h1, List.mem_append]
  exact hb.imp_right fun hb => hb.resolve_left hne

/-- The tree after `vm_iomap`. -/
theorem Mapped.aRoot (hm : x.Mapped x' v a area) (h : x.VmInv) (hv : v ∈ x.live .vma)
    (hr : x.Request area) (ht : area.vmarTyp = .io)
    (he : x.vmMmapInternal v area.va area.pa area.prot area.size area.vmarTyp true = .ok (0, x')) :
    (x'.vmas v).aRoot = A.postInsert ((x.vmas v).aRoot.add
      (fun node => insertCompareVmarea area (x.areas node)) a).2 a := by
  unfold vmMmapInternal at he
  rw [if_pos ⟨h.ne_zero hv, hr.size_pos, hr.va_aligned, hr.pa_aligned, hr.size_aligned⟩] at he
  rcases ho : x.objAlloc .vmaArea with ⟨_ | b, y⟩
  · rw [ho] at he
    exact absurd (Prod.mk.inj (Except.ok.inj he)).1 (by decide)
  have hrec : (⟨area.vmarTyp, area.va, area.size, area.pa, none, area.prot⟩ : VmaArea) = area := by
    rw [← hr.pgfm]
  obtain ⟨hat, -, hfresh, -⟩ := objAlloc_some ho
  rw [ho] at he
  dsimp only at he
  rw [hrec, ht] at he
  set z := y.setArea b area with hz
  have hzb : z.areas b = area := Function.update_self (β := fun _ => VmaArea) _ _ _
  have hzv : z.vmas = x.vmas := hat.vmas
  -- the comparisons do not see the new object
  have htree : ∀ n ∈ (x.vmas v).aRoot.toList,
      insertCompareVmarea (z.areas b) (z.areas n) = insertCompareVmarea area (x.areas n) := by
    intro n hn
    rw [(h.listed v hv).toList] at hn
    have hnb : n ≠ b := fun hnb => hfresh (hnb ▸ h.mem_live hv hn)
    rw [hzb, ← hat.areas]
    exact congrArg _ (Function.update_of_ne (β := fun _ => VmaArea) hnb _ _)
  unfold mmapArea at he
  by_cases hway : z.inTheWay v (z.areas b) = none
  swap
  · rw [hang_refused hway] at he
    dsimp only at he
    rw [if_pos (by decide)] at he
    exact absurd he (freeVmaArea_ne (by decide))
  obtain ⟨z', hz', hroot⟩ := hang_aRoot hway
  rw [hz'] at he
  dsimp only at he
  rw [if_neg (not_not.2 rfl), if_pos rfl] at he
  have hvmas : x'.vmas v = z'.vmas v := by
    rcases hcb : hwMapCallbacks .io z' v b with e | ⟨ret, z''⟩
    · rw [hcb] at he
      cases he
    rw [hcb] at he
    dsimp only at he
    by_cases hret : ret ≠ 0
    · rw [if_pos hret] at he
      exact absurd he (freeVmaArea_ne hret)
    · rw [if_neg hret] at he
      cases he
      exact congrFun (mmapKernelIoHwCb_vmas hcb) v
  rw [hzv, SearchTree.add_congr htree] at hroot
  rw [hvmas, hroot]
  -- the object is the one that has come to the list
  have hfind : (x.vmas v).aRoot.find (fun n => insertCompareVmarea area (x.areas n)) = none := by
    rw [← SearchTree.find_congr htree, ← hzv]
    exact hway
  obtain ⟨l, r, -, hlr⟩ := SearchTree.add_none (a := b) hfind
  have hb : b ∈ x'.list v := by
    rw [← hm.toList, hvmas, hroot, A.toList_postInsert, hlr]
    exact List.mem_append_right _ List.mem_cons_self
  rw [hm.toLinked.eq_of_fresh h hv hfresh hb]

/-- A page for `vm_iomap`. -/
def ioPage (va : ℕ) : VmaArea := ioArea va vmMachineLayout.paEnd 1 4096

/-- `vm_iomap` has mapped a page, and hung an object at the right of the tree. -/
structure IoPage {A : VmEnv vmMachineLayout} (x x' : VmState A) (v a va : ℕ) : Prop where
  live : v ∈ x'.live .vma
  fresh : a ∉ x.live .vmaArea
  live_area : a ∈ x'.live .vmaArea
  made : (x'.areas a).interval = (ioPage va).interval
  areas : ∀ b ∈ x.live .vmaArea, b ∈ x'.live .vmaArea ∧ x'.areas b = x.areas b
  aRoot : (x'.vmas v).aRoot = A.postInsert ((x.vmas v).aRoot.add
    (fun node => insertCompareVmarea (ioPage va) (x.areas node)) a).2 a
  rest : ∀ w < tableSpan, w ≠ position 2 va → ¬ x.mem.ValidAt 2 (x.root v) w →
    ¬ x'.mem.ValidAt 2 (x'.root v) w
  free : x.mem.freePages.ncard < x'.mem.freePages.ncard + 2 ^ 19

theorem vaEnd_of_interval {area area' : VmaArea} (h : area.interval = area'.interval) :
    area.vaEnd = area'.vaEnd :=
  congrArg (fun i => (i.va + i.size) % 2 ^ 64) h

namespace IoPage

variable {A : VmEnv vmMachineLayout} {x x' : VmState A} {v a b va : ℕ}

theorem ne (h : IoPage x x' v a va) (hb : b ∈ x.live .vmaArea) : b ≠ a :=
  fun he => h.fresh (he ▸ hb)

theorem live_old (h : IoPage x x' v a va) (hb : b ∈ x.live .vmaArea) : b ∈ x'.live .vmaArea :=
  (h.areas b hb).1

theorem vaEnd_new (h : IoPage x x' v a va) : (x'.areas a).vaEnd = (ioPage va).vaEnd :=
  vaEnd_of_interval h.made

theorem vaEnd_old (h : IoPage x x' v a va) (hb : b ∈ x.live .vmaArea) :
    (x'.areas b).vaEnd = (x.areas b).vaEnd := by
  rw [(h.areas b hb).2]

end IoPage

/-- A free page behind the kernel can be mapped. -/
theorem ioPage_succeeds {A : VmEnv vmMachineLayout} {x : VmState A} (hA : A.Ample)
    (hr : (vmRuns A).Reachable x) (hv : v ∈ x.live .vma) {va : ℕ} (hva : va % pageSize = 0)
    (hlt : va < 2 ^ 64) (hmanaged : vmMachineLayout.vaEnd ≤ va)
    (hway : x.inTheWay v (ioPage va) = none)
    (hno : ¬ x.mem.ValidAt 2 (x.root v) (position 2 va))
    (hfree : 2 ^ 19 ≤ x.mem.freePages.ncard) :
    ∃ a x', (vmRuns A).step x (.vmIomap v va vmMachineLayout.paEnd 1 4096) x' ∧
      IoPage x x' v a va := by
  have h := (inv_reachable hr).vm
  have hacc : IomapAccepts vmMachineLayout v va vmMachineLayout.paEnd 4096 :=
    ⟨.inl hmanaged, .inl le_rfl, h.ne_zero hv, hva, by norm_num, hva⟩
  have hreq : x.Request (ioPage va) := ioArea_request hacc hlt (by decide) (by decide) 1
  have hcov : ∀ w < tableSpan, (ioPage va).Covers w ↔ w = position 2 va := by
    intro w _
    show position 2 va ≤ w ∧ (0 < toInt32 (pageUpperAlign 4096 / pageSize) →
      (w : ℤ) < position 2 va + toInt32 (pageUpperAlign 4096 / pageSize)) ↔ _
    rw [show toInt32 (pageUpperAlign 4096 / pageSize) = 1 by decide]
    omega
  obtain ⟨a, x', he, hm, hn⟩ := vmMmapInternal_succeeds hA h hv hreq
    (show 0 ≤ toInt32 (pageUpperAlign 4096 / pageSize) by decide) hway
    (fun w hw hc => (hcov w hw).1 hc ▸ hno) hfree
  have heq : x.vmIomap v va vmMachineLayout.paEnd 1 4096 = .ok (0, x') := by
    rcases x.vmIomap_eq v va vmMachineLayout.paEnd 1 4096 with ⟨hn, -⟩ | ⟨-, heq⟩
    · exact absurd hacc hn
    · exact heq.trans he
  have hroot : x'.root v = x.root v := by
    unfold VmState.root
    rw [hm.frame.hwPgtable]
  have hlive : x'.live .vmaArea = insert a (x.live .vmaArea) := by
    rw [hm.live, Function.update_self]
  refine ⟨a, x', ⟨⟨⟨hlt, by decide, by norm_num⟩, .inr hv⟩, 0, heq⟩, ?_, hm.fresh, ?_, ?_,
    fun b hb => ⟨?_, ?_⟩, hm.aRoot h hv hreq rfl he, fun w hw hne hnv => ?_, hn⟩
  · rw [hm.frame.liveVma]
    exact hv
  · rw [hlive]
    exact Finset.mem_insert_self _ _
  · rw [hm.made]
    rfl
  · rw [hlive]
    exact Finset.mem_insert_of_mem hb
  · exact hm.areas b fun hba => hm.fresh (hba ▸ hb)
  · rintro ⟨e, he', hve⟩
    rcases hm.rest w hw (fun hc => hne ((hcov w hw).1 hc)) with h1 | ⟨-, h1⟩
    · exact hnv ⟨e, h1.symm.trans he', hve⟩
    · cases h1.symm.trans he'
      exact absurd hve (by decide)

end VmState

/-! ### Runs -/

open VmState

/-- The runs in which no request wraps around. -/
def plainRuns (A : VmEnv L) : Machine.System (VmState A) VmCall :=
  (vmRuns A).restrict fun x call => ∀ v area, x.Asks v area call → area.Plain

namespace VmState

theorem sorted_reachable {x : VmState A} (h : (plainRuns A).Reachable x) :
    x.Inv ∧ x.SortedSpaces := by
  refine h.invariant (P := fun x => x.Inv ∧ x.SortedSpaces) (fun s hs => ?_)
    fun s call s' _ hinv hstep => ?_
  · obtain ⟨x₀, pgtable, hboot, hinit⟩ := hs
    obtain ⟨text, data, hb⟩ := hboot.booted hinit
    exact ⟨hb.inv, fun v hv => (hb.lowSpaces v hv).1.sorted⟩
  · obtain ⟨hs, hall⟩ := hinv
    obtain ⟨hplain, hst⟩ := hstep
    have he := effect_of_step hs hst
    exact ⟨he.inv hs, he.sortedSpaces hs hall hplain⟩

end VmState

/-- In every run without a request that wraps around, the areas of an address space are intervals
that are apart, and `__vm_mmap` and `__vm_unmap` are the operations on the set of them. -/
theorem area_operations (x₀ : VmState A) (h₀ : (plainRuns A).Reachable x₀) (x : VmState A)
    (hx : x₀.Within x) (v : ℕ) (hv : v ∈ x.live .vma) :
    ((x.intervals v).Pairwise fun i j => ¬ i.Meets j) ∧
    (∀ area : VmaArea, x.Request area → area.Low →
      ((x.objAlloc .vmaArea).1 ≠ none → ((∃ x', x.vmMmapInternal v area.va area.pa area.prot
        area.size area.vmarTyp true = .ok (-eexist, x')) ↔
          ∃ i ∈ x.intervals v, area.interval.Meets i)) ∧
      ∀ ret x', x.vmMmapInternal v area.va area.pa area.prot area.size area.vmarTyp true =
          .ok (ret, x') →
        (ret = 0 → (∀ i ∈ x.intervals v, ¬ area.interval.Meets i) ∧
          x'.intervals v = insert area.interval (x.intervals v)) ∧
        (ret ≠ 0 → x'.intervals v = x.intervals v) ∧
        ∀ w ∈ x.live .vma, w ≠ v → x'.intervals w = x.intervals w) ∧
    ∀ (va size : ℕ) (typ : VmarType), va % pageSize = 0 → size % pageSize = 0 → 0 < size →
      va + size ≤ 2 ^ 39 → typ ≠ .kernel →
      ∃ ret x', x.vmUnmapInternal v va size typ = .ok (ret, x') ∧
        (ret = 0 ↔ ∃ i ∈ x.intervals v, i.HasRange va size ∧ i.typ = typ) ∧
        (ret = -eperm ↔ ∃ i ∈ x.intervals v, i.HasRange va size ∧ i.typ ≠ typ) ∧
        (ret = -enobufs ↔ ∀ i ∈ x.intervals v, ¬ i.HasRange va size) ∧
        (ret = 0 → x'.intervals v = x.intervals v \ {i | i.HasRange va size}) ∧
        (ret ≠ 0 → x' = x) ∧ ∀ w ∈ x.live .vma, w ≠ v → x'.intervals w = x.intervals w := by
  obtain ⟨hinv, hall⟩ := sorted_reachable h₀
  -- sorted lists make the search in the tree a search among intervals
  obtain ⟨h, hsort⟩ := hx.sortedSpaces hinv hall
  have hs := hsort v hv
  refine ⟨hs.intervals_apart, fun area hr hlow => vmMmapInternal_refines h hv hs hr hlow, ?_⟩
  intro va size typ hva hsize hpos hlow ht
  exact vmUnmapInternal_refines h hv hs hva hsize hpos hlow ht

/-- The page behind the kernel is mapped, and then unmapped. -/
theorem area_operations_page : ∃ (x x' : VmState avlMachine) (v : ℕ),
    (plainRuns avlMachine).Reachable x ∧ v ∈ x.live .vma ∧
    (ioPage vmMachineLayout.vaEnd).interval ∈ x.intervals v ∧
    x.vmUnmapInternal v vmMachineLayout.vaEnd 4096 .io = .ok (0, x') ∧
    x'.intervals v = x.intervals v \ {i | i.HasRange vmMachineLayout.vaEnd 4096} := by
  obtain ⟨s, t, d, hs, hb, hn⟩ := avlMachine_boots
  have hr : (vmRuns avlMachine).Reachable s := .of_init hs
  obtain ⟨p, x, hst, hx⟩ := ioPage_succeeds vmMachine_ample.withAvl hr hb.vm.kern_live
    (show vmMachineLayout.vaEnd % pageSize = 0 by decide) (by decide) le_rfl
    (vmMachine_behind hb rfl rfl).1 (vmMachine_unmapped hb _ (position_lt 2 _) (by decide))
    (by omega)
  have hplain : (plainRuns avlMachine).Reachable x := by
    refine .step (.of_init hs) ⟨?_, hst⟩
    rintro v area ⟨-, rfl⟩
    exact (show (ioPage vmMachineLayout.vaEnd).Plain by unfold VmaArea.Plain; decide)
  have hpage : (ioPage vmMachineLayout.vaEnd).interval ∈ x.intervals s.kernVma := by
    refine ⟨p, ?_, hx.made⟩
    have hinv := (inv_reachable (hr.step hst)).vm
    rw [← (hinv.listed _ hx.live).toList, hx.aRoot, avlMachine.toList_postInsert]
    have hway := (vmMachine_behind hb (show (ioPage vmMachineLayout.vaEnd).va = _ from rfl) rfl).1
    obtain ⟨l, r, -, hlr⟩ := SearchTree.add_none (a := p) hway
    rw [hlr]
    exact List.mem_append_right _ List.mem_cons_self
  obtain ⟨-, -, hunmap⟩ := area_operations x hplain x .call s.kernVma hx.live
  obtain ⟨ret, x', he, h0, -, -, hset, -⟩ := hunmap vmMachineLayout.vaEnd 4096 .io (by decide)
    (by decide) (by decide) (by decide) (by decide)
  have hret : ret = 0 := h0.2 ⟨_, hpage, ⟨rfl, rfl⟩, rfl⟩
  rw [hret] at he
  exact ⟨x, x', s.kernVma, hplain, hx.live, hpage, he, hset hret⟩

/-! ### An area that wraps around -/

open SearchTree in
/-- Pages behind the kernel and at the end of the address space. -/
theorem avlMachine_two : ∃ (x : VmState avlMachine) (v t d p w : ℕ),
    (vmRuns avlMachine).Reachable x ∧ v ∈ x.live .vma ∧
    (t ∈ x.live .vmaArea ∧ d ∈ x.live .vmaArea ∧ p ∈ x.live .vmaArea ∧ w ∈ x.live .vmaArea) ∧
    (x.vmas v).aRoot = node (node nil t nil) d (node nil p (node nil w nil)) ∧
    (x.areas d).vaEnd = vmMachineLayout.vaEnd ∧
    (x.areas p).interval = (ioPage vmMachineLayout.vaEnd).interval ∧
    (x.areas w).interval = (ioPage (2 ^ 64 - 4096)).interval ∧
    ¬ x.mem.ValidAt 2 (x.root v) (position 2 (vmMachineLayout.vaEnd + 4096)) ∧
    2 ^ 19 ≤ x.mem.freePages.ncard := by
  obtain ⟨s, t, d, hs, hb, hn⟩ := avlMachine_boots
  have hr : (vmRuns avlMachine).Reachable s := .of_init hs
  have hk := hb.vm.kern_live
  have hno := vmMachine_unmapped hb
  have hlist : (s.vmas s.kernVma).aRoot.toList = [t, d] := by
    rw [(hb.vm.listed _ hk).toList, hb.list]
  have ht : t ∈ s.live .vmaArea := hb.vm.mem_live hk (by rw [hb.list]; exact List.mem_cons_self)
  have hd : d ∈ s.live .vmaArea := hb.vm.mem_live hk (by
    rw [hb.list]
    exact List.mem_cons_of_mem _ List.mem_cons_self)
  have hte : (s.areas t).vaEnd ≤ vmMachineLayout.vaEnd := by
    rw [hb.text]
    decide
  have hde : (s.areas d).vaEnd = vmMachineLayout.vaEnd := by
    rw [hb.data]
    decide
  -- the page behind the managed range is the third node, and the second one becomes the root
  obtain ⟨p, x₁, hst₁, h₁⟩ := ioPage_succeeds vmMachine_ample.withAvl hr hk
    (show vmMachineLayout.vaEnd % pageSize = 0 by decide) (by decide) le_rfl
    (vmMachine_behind hb rfl rfl).1 (hno _ (position_lt 2 _) (by decide)) (by omega)
  have hr₁ := hr.step hst₁
  have hfree₁ := h₁.free
  have hroot₁ : (x₁.vmas s.kernVma).aRoot = node (node nil t nil) d (node nil p nil) :=
    h₁.aRoot.trans (avlNodePostInsert_third hlist (insertCompare_pos.2 hte)
      (insertCompare_pos.2 hde.le) (h₁.ne ht) (h₁.ne hd))
  have hleft₁ : (x₁.areas d).vaEnd ≤ 2 ^ 64 - 4096 ∧ (x₁.areas p).vaEnd ≤ 2 ^ 64 - 4096 := by
    rw [h₁.vaEnd_old hd, hde, h₁.vaEnd_new]
    decide
  -- the page at the end of the address space hangs behind it
  have hway₁ : x₁.inTheWay s.kernVma (ioPage (2 ^ 64 - 4096)) = none := by
    unfold inTheWay
    rw [hroot₁]
    refine (find_right ?_).trans ((find_right ?_).trans rfl)
    · exact insertCompare_pos.2 hleft₁.1
    · exact insertCompare_pos.2 hleft₁.2
  obtain ⟨w, x₂, hst₂, h₂⟩ := ioPage_succeeds vmMachine_ample.withAvl hr₁ h₁.live
    (show (2 ^ 64 - 4096) % pageSize = 0 by decide) (by decide) (by decide) hway₁
    (h₁.rest _ (position_lt 2 _) (by decide) (hno _ (position_lt 2 _) (by decide))) (by omega)
  have hfree₂ := h₂.free
  have hd₁ := h₁.live_old hd
  have ht₁ := h₁.live_old ht
  refine ⟨x₂, s.kernVma, t, d, p, w, hr₁.step hst₂, h₂.live, ⟨h₂.live_old ht₁, h₂.live_old hd₁,
    h₂.live_old h₁.live_area, h₂.live_area⟩, ?_, ?_, ?_, h₂.made, ?_, by omega⟩
  · rw [h₂.aRoot, hroot₁]
    refine (congrArg (avlNodePostInsert w) (add_right ?_)).trans ?_
    · exact insertCompare_pos.2 hleft₁.1
    rw [avlNodePostInsert_right (h₂.ne hd₁) fun hw => h₂.ne ht₁ (List.mem_singleton.1 hw).symm]
    refine (congrArg (avlNodeFix _ d) (avlNodePostInsert_second ?_ (h₂.ne h₁.live_area))).trans rfl
    exact insertCompare_pos.2 hleft₁.2
  · rw [h₂.vaEnd_old hd₁, h₁.vaEnd_old hd, hde]
  · rw [(h₂.areas p h₁.live_area).2, h₁.made]
  · exact h₂.rest _ (position_lt 2 _) (by decide) (h₁.rest _ (position_lt 2 _) (by decide)
      (hno _ (position_lt 2 _) (by decide)))

open SearchTree in
/-- With one page more the page at the end of the address space comes to the root of its subtree,
and the first page is to its left. -/
theorem avlMachine_three : ∃ (x : VmState avlMachine) (v t d p w b : ℕ),
    (vmRuns avlMachine).Reachable x ∧ v ∈ x.live .vma ∧
    (x.vmas v).aRoot = node (node nil t nil) d (node (node nil p nil) w (node nil b nil)) ∧
    (x.areas d).vaEnd = vmMachineLayout.vaEnd ∧
    (x.areas p).interval = (ioPage vmMachineLayout.vaEnd).interval ∧
    (x.areas w).interval = (ioPage (2 ^ 64 - 4096)).interval ∧
    (x.areas b).interval = (ioPage (vmMachineLayout.vaEnd + 4096)).interval := by
  obtain ⟨x, v, t, d, p, w, hr, hv, ⟨ht, hd, hp, hw⟩, hroot, hde, hpi, hwi, hno, hfree⟩ :=
    avlMachine_two
  have hdl : (x.areas d).vaEnd ≤ vmMachineLayout.vaEnd + 4096 := by
    rw [hde]
    decide
  have hpl : (x.areas p).vaEnd ≤ vmMachineLayout.vaEnd + 4096 := by
    rw [vaEnd_of_interval hpi]
    decide
  have hwl : (x.areas w).vaEnd ≤ vmMachineLayout.vaEnd + 4096 := by
    rw [vaEnd_of_interval hwi]
    decide
  have hway : x.inTheWay v (ioPage (vmMachineLayout.vaEnd + 4096)) = none := by
    unfold inTheWay
    rw [hroot]
    refine (find_right ?_).trans ((find_right ?_).trans ((find_right ?_).trans rfl))
    · exact insertCompare_pos.2 hdl
    · exact insertCompare_pos.2 hpl
    · exact insertCompare_pos.2 hwl
  obtain ⟨b, x', hst, h⟩ := ioPage_succeeds vmMachine_ample.withAvl hr hv
    (show (vmMachineLayout.vaEnd + 4096) % pageSize = 0 by decide) (by decide) (by decide) hway
    hno hfree
  refine ⟨x', v, t, d, p, w, b, hr.step hst, h.live, ?_, ?_, ?_, ?_, h.made⟩
  · rw [h.aRoot, hroot]
    refine (congrArg (avlNodePostInsert b) (add_right ?_)).trans ?_
    · exact insertCompare_pos.2 hdl
    rw [avlNodePostInsert_right (h.ne hd) fun hb => h.ne ht (List.mem_singleton.1 hb).symm]
    refine (congrArg (avlNodeFix _ d)
      (avlNodePostInsert_third rfl ?_ ?_ (h.ne hp) (h.ne hw))).trans rfl
    · exact insertCompare_pos.2 hpl
    · exact insertCompare_pos.2 hwl
  · rw [h.vaEnd_old hd, hde]
  · rw [(h.areas p hp).2, hpi]
  · rw [(h.areas w hw).2, hwi]

open SearchTree in
/-- A page that is mapped between the kernel and one at the end of the address space cannot be
unmapped: the search is sent to the right of the one that wraps around. -/
theorem not_area_operations : ∃ (x : VmState avlMachine) (v : ℕ),
    (vmRuns avlMachine).Reachable x ∧ v ∈ x.live .vma ∧
    vmMachineLayout.vaEnd % pageSize = 0 ∧ vmMachineLayout.vaEnd + 4096 ≤ 2 ^ 39 ∧
    (∃ i ∈ x.intervals v, i.HasRange vmMachineLayout.vaEnd 4096 ∧ i.typ = .io) ∧
    x.vmUnmapInternal v vmMachineLayout.vaEnd 4096 .io = .ok (-enobufs, x) ∧
    x.vmIounmap v vmMachineLayout.vaEnd 4096 = .ok (-enobufs, x) := by
  obtain ⟨x, v, t, d, p, w, b, hr, hv, hroot, hde, hpi, hwi, hbi⟩ := avlMachine_three
  have h := (inv_reachable hr).vm
  have hp : p ∈ x.list v := by
    rw [← (h.listed v hv).toList, hroot]
    simp [toList]
  have hwva : (x.areas w).va = 2 ^ 64 - 4096 := congrArg Interval.va hwi
  have hbva : (x.areas b).va = vmMachineLayout.vaEnd + 4096 := congrArg Interval.va hbi
  have hfind : x.findArea v vmMachineLayout.vaEnd 4096 = none := by
    unfold findArea
    rw [hroot]
    refine (find_right ?_).trans ((find_right ?_).trans ?_)
    · refine findCompare_pos hde.le fun hrange => ?_
      unfold VmaArea.vaEnd at hde
      rw [← hrange.1, ← hrange.2] at hde
      exact absurd hde (by decide)
    · refine findCompare_pos ?_ fun hrange => ?_
      · rw [vaEnd_of_interval hwi]
        decide
      · rw [hwva] at hrange
        exact absurd hrange.1 (by decide)
    · have hneg : findCompare vmMachineLayout.vaEnd 4096 (x.areas b) < 0 := by
        refine findCompare_neg ?_ fun hrange => ?_
        · rw [vaEnd_of_interval hbi]
          decide
        · rw [hbva] at hrange
          exact absurd hrange.1 (by decide)
      rw [find, if_neg hneg.ne, if_pos hneg, find]
  have hunmap : x.vmUnmapInternal v vmMachineLayout.vaEnd 4096 .io = .ok (-enobufs, x) := by
    unfold vmUnmapInternal
    rw [if_pos ⟨h.ne_zero hv, by decide, by decide, by decide⟩, hfind]
  refine ⟨x, v, hr, hv, by decide, by decide, ⟨_, ⟨p, hp, hpi⟩, ⟨rfl, rfl⟩, rfl⟩, hunmap, ?_⟩
  unfold vmIounmap
  rw [if_neg (by decide), if_neg (h.ne_zero hv), if_neg (by decide)]
  exact hunmap

end AcoOs
