/-
The objects of `vma_cache`, byte by byte.

`vma_dup` asserts that `hw_pgtable` and `kernel_vma` of the object it gets from `kmem_obj_alloc` are
zero, and `kmem_obj_alloc` clears nothing.  So every object has to be clean while it is free: those
of a new slab because the block was cleared, and those that come back because `vma_free` clears them
or because `vma_dup` gave up before it had stored anything but `NULL`.

`vmaRuns` are the runs of `vma_alloc`, `vma_dup`, `vma_free` and the calls that map and unmap, after
`vm_module_init`.  A call may end at any of its exits, and a `vma_t*` may be stale.  What a call
does outside `vma_cache` is any number of steps of `SlabMemory.Outside`: its page tables, areas and
blocks come from the page allocator, and it stores in these, in other caches and in address spaces
that are handed out.

* **`vma_objects_clean`** — in every state of a run the free objects have `hw_pgtable` and
  `kernel_vma` zero, and so the `ASSERT` of `vma_dup` holds.
-/
import AcoOs.SlabClean

namespace AcoOs

open Machine

/-! ### `vma_t` -/

/-- `sizeof(vma_t)`: the lock, two pointers, the root of the tree and the head of the list. -/
def sizeofVma : ℕ := 56

namespace Bytes

/-- `vma->hw_pgtable`. -/
def hwPgtable (m : Bytes) (vma : ℕ) : ℕ := m.load (vma + 16) 8

/-- `vma->kernel_vma`. -/
def kernelVma (m : Bytes) (vma : ℕ) : ℕ := m.load (vma + 24) 8

/-- What `vma_dup` asserts of an object it has allocated. -/
def Blank (m : Bytes) (vma : ℕ) : Prop := m.hwPgtable vma = 0 ∧ m.kernelVma vma = 0

/-- The other stores in a new address space: `rwlock_init`, `kernel_vma`, `avl_root_init` and
`INIT_LIST_HEAD`. -/
def initVma (m : Bytes) (vma kernVma : ℕ) : Bytes :=
  let m := m.store (vma + 8) 4 0
  let m := m.store (vma + 4) 4 0
  let m := m.store vma 4 1
  let m := m.store (vma + 24) 8 kernVma
  let m := m.store (vma + 32) 8 0
  let m := m.store (vma + 48) 8 (vma + 40 : ℕ)
  m.store (vma + 40) 8 (vma + 40 : ℕ)

theorem Zero.blank {m : Bytes} {vma : ℕ} (h : m.Zero vma sizeofVma) : m.Blank vma :=
  ⟨(h.mono (by omega) (by unfold sizeofVma; omega)).load,
    (h.mono (by omega) (by unfold sizeofVma; omega)).load⟩

/-- A store in an object is not one outside it. -/
theorem store_outside {m : Bytes} {vma b n d : ℕ} (v : ℤ) (hd : d + n ≤ sizeofVma)
    (h : b < vma ∨ vma + sizeofVma ≤ b) : m.store (vma + d) n v b = m b := by
  rcases h with h | h
  · exact store_of_lt _ (by omega)
  · exact store_of_le _ (by omega)

theorem initVma_outside {m : Bytes} {vma kernVma b : ℕ} (h : b < vma ∨ vma + sizeofVma ≤ b) :
    m.initVma vma kernVma b = m b := by
  unfold initVma
  rw [store_outside _ (by decide) h, store_outside _ (by decide) h, store_outside _ (by decide) h,
    store_outside _ (by decide) h]
  refine (store_outside (d := 0) _ (by decide) h).trans ?_
  rw [store_outside _ (by decide) h, store_outside _ (by decide) h]

end Bytes

/-! ### The calls -/

variable {c : Layout}

/-- `vma_cache` in memory, the objects that are handed out, and `kern_vma`. -/
structure VmaObjects (A : PageAllocator c) where
  mem : SlabMemory A
  live : Finset ℕ
  kernVma : ℕ

namespace VmaObjects

variable {A : PageAllocator c}

/-- An object that the array of its slab does not mark as handed out. -/
def Free (x : VmaObjects A) (v : ℕ) : Prop :=
  ∃ p ∈ x.mem.kmem.cache.all, ∃ i < (x.mem.kmem.slabs p).objAll.toNat,
    (x.mem.kmem.slabs p).memIndexStart i ≠ -1 ∧ v = (x.mem.kmem.slabs p).obj i

/-- A `vma_t*`: `NULL`, or an object, which may have been freed since. -/
def Pointer (x : VmaObjects A) (v : ℕ) : Prop := v = 0 ∨ x.mem.kmem.IsObject v

/-- The tests at the start of `vma_dup`. -/
def Accepts (x : VmaObjects A) (vmaCopied : ℕ) : Prop :=
  ¬ (vmaCopied = 0 ∨ x.mem.bytes.kernelVma vmaCopied ≠ x.kernVma ∨
    x.mem.bytes.hwPgtable vmaCopied = 0)

/-- The object `ret` has become an address space with a page table. -/
def opened (x : VmaObjects A) (m : SlabMemory A) (ret pgtable : ℕ) : VmaObjects A where
  mem := { m with bytes := (m.bytes.store (ret + 16) 8 pgtable).initVma ret x.kernVma }
  live := insert ret x.live
  kernVma := x.kernVma

/-- `vma_free`, exit by exit. -/
inductive VmaFree (x : VmaObjects A) (vma : ℕ) : VmaObjects A → Prop
  | null (h : vma = 0) : VmaFree x vma x
  | kernel (h : vma = x.kernVma) : VmaFree x vma x
  | closed (h : x.mem.bytes.kernelVma vma ≠ x.kernVma) : VmaFree x vma x
  -- the loop over the areas and `hw_unmap_all`, `memset` and `kmem_obj_free`
  | freed {m w : SlabMemory A} (hnull : vma ≠ 0) (hkernel : vma ≠ x.kernVma)
      (hopen : x.mem.bytes.kernelVma vma = x.kernVma) (hareas : x.mem.Elsewhere x.live m)
      (hfree : SlabMemory.kmemObjFree { m with bytes := m.bytes.memset vma 0 sizeofVma } vma =
        some w) : VmaFree x vma { x with mem := w, live := x.live.erase vma }

/-- `vma_dup` with its result, exit by exit. -/
inductive VmaDup (x : VmaObjects A) (vmaCopied : ℕ) : ℕ → VmaObjects A → Prop
  | refused (h : ¬ x.Accepts vmaCopied) : VmaDup x vmaCopied 0 x
  | noObject {stack : ℕ → BitVec 8} {m : SlabMemory A} (h : x.Accepts vmaCopied)
      (halloc : x.mem.kmemObjAlloc stack = some (none, m)) :
      VmaDup x vmaCopied 0 { x with mem := m }
  -- `free_vma_cache`: `bk_alloc_zero` returned `NULL`, which is stored in `hw_pgtable`
  | noTable {stack : ℕ → BitVec 8} {ret : ℕ} {m t w : SlabMemory A} (h : x.Accepts vmaCopied)
      (halloc : x.mem.kmemObjAlloc stack = some (some ret, m)) (hassert : m.bytes.Blank ret)
      (htable : m.Elsewhere x.live t)
      (hfree : SlabMemory.kmemObjFree { t with bytes := t.bytes.store (ret + 16) 8 0 } ret =
        some w) : VmaDup x vmaCopied 0 { x with mem := w }
  -- the loop copies all areas
  | done {stack : ℕ → BitVec 8} {ret pgtable : ℕ} {m t w : SlabMemory A} (h : x.Accepts vmaCopied)
      (halloc : x.mem.kmemObjAlloc stack = some (some ret, m)) (hassert : m.bytes.Blank ret)
      (htable : m.Elsewhere x.live t) (hpgtable : pgtable ≠ 0)
      (hareas : (x.opened t ret pgtable).mem.Elsewhere (insert ret x.live) w) :
      VmaDup x vmaCopied ret { x.opened t ret pgtable with mem := w }
  -- `free_map_area`: one could not be copied
  | undone {stack : ℕ → BitVec 8} {ret pgtable : ℕ} {m t w : SlabMemory A} {y : VmaObjects A}
      (h : x.Accepts vmaCopied) (halloc : x.mem.kmemObjAlloc stack = some (some ret, m))
      (hassert : m.bytes.Blank ret) (htable : m.Elsewhere x.live t) (hpgtable : pgtable ≠ 0)
      (hareas : (x.opened t ret pgtable).mem.Elsewhere (insert ret x.live) w)
      (hfree : VmaFree { x.opened t ret pgtable with mem := w } ret y) : VmaDup x vmaCopied 0 y

/-- The calls with their results. -/
inductive Act
  | alloc (ret : ℕ)
  | dup (vmaCopied ret : ℕ)
  | free (vma : ℕ)
  | mapping

/-- One call.  Those that map and unmap leave `vma_cache` alone. -/
inductive Step (x : VmaObjects A) : Act → VmaObjects A → Prop
  | vmaAlloc {ret : ℕ} {y : VmaObjects A} (h : x.VmaDup x.kernVma ret y) : Step x (.alloc ret) y
  | vmaDup {v ret : ℕ} {y : VmaObjects A} (hv : x.Pointer v) (h : x.VmaDup v ret y) :
      Step x (.dup v ret) y
  | vmaFree {v : ℕ} {y : VmaObjects A} (hv : x.Pointer v) (h : x.VmaFree v y) : Step x (.free v) y
  | mapping {m : SlabMemory A} (h : x.mem.Elsewhere x.live m) : Step x .mapping { x with mem := m }

/-- What `vm_module_init` passes to `kmem_cache_init` for `vma_cache`, which lies at an address that
`kmem_cache_alloc` returned. -/
def cacheArgs (vmaCache : ℕ) : KmemArgs := ⟨vmaCache, sizeofVma, 0, 3000, 3⟩

/-- `vm_module_init` has returned 0: after `vma_cache` it sets up `vma_area_cache`, allocates and
fills in `kern_vma`, and adds the areas of the kernel. -/
inductive Booted (vmaCache : ℕ) : VmaObjects A → Prop
  | intro {x₀ m t u w : SlabMemory A} {frames : ℕ → ℕ → BitVec 8} {stack : ℕ → BitVec 8}
      {kernVma pgtable : ℕ} (hinit : x₀.kmemCacheInit (cacheArgs vmaCache) frames = some (0, m))
      (hcache : m.Elsewhere ∅ t) (halloc : t.kmemObjAlloc stack = some (some kernVma, u))
      (hareas : (VmaObjects.opened ⟨u, ∅, kernVma⟩ u kernVma pgtable).mem.Elsewhere
        {kernVma} w) : Booted vmaCache ⟨w, {kernVma}, kernVma⟩

/-- The runs after `vm_module_init`. -/
def runs (A : PageAllocator c) (vmaCache : ℕ) : System (VmaObjects A) Act where
  init := Booted vmaCache
  step := Step

/-! ### What every run keeps -/

variable {x y : VmaObjects A} {v : ℕ}

/-- The slabs are right, the free objects are clean, and `kern_vma` is never freed. -/
structure Inv (x : VmaObjects A) : Prop where
  slabs : ∃ chain, SlabsInv sizeofVma 0 chain x.live x.mem.kmem
  clean : x.mem.Clean x.live
  kern : x.kernVma ∈ x.live

theorem sizeofVma_fits : SlabSize sizeofVma 0 := ⟨by decide, by decide, by decide⟩

/-- The address of an object is not `NULL`. -/
theorem Inv.pos (h : x.Inv) (hv : v ∈ x.live) : v ≠ 0 := by
  obtain ⟨chain, hs⟩ := h.slabs
  obtain ⟨p, hp, i, hi, -, rfl⟩ := (hs.live_iff v).1 hv
  have := ((hs.slab p hp).obj_within hi).1
  unfold sizeofSlab at this
  omega

/-- A free object is clean, and its marks in the array say so. -/
theorem Inv.blank (h : x.Inv) (hv : x.mem.kmem.IsObject v) (hn : v ∉ x.live) :
    x.mem.bytes.Blank v := by
  obtain ⟨chain, hs⟩ := h.slabs
  have hzero := h.clean v hv hn
  rw [hs.objSize, Int.toNat_natCast] at hzero
  exact hzero.blank

theorem Inv.free_notMem (h : x.Inv) (hv : x.Free v) : x.mem.kmem.IsObject v ∧ v ∉ x.live := by
  obtain ⟨chain, hs⟩ := h.slabs
  obtain ⟨p, hp, i, hi, hmark, rfl⟩ := hv
  refine ⟨⟨p, hp, i, hi, rfl⟩, fun hl => ?_⟩
  have hobjs := (hs.slab p hp).objAll
  rw [hobjs, Int.toNat_natCast] at hi
  obtain ⟨q, hq, j, hj, hn, he⟩ := (hs.live_iff _).1 hl
  obtain ⟨rfl, rfl⟩ := hs.obj_inj sizeofVma_fits.pos hp hi hq hj he
  exact hmark ((hs.slab p hp).queue.mark i hi hn)

/-- `vma_free` keeps the invariant: it clears what it gives back. -/
theorem Inv.vmaFree (h : x.Inv) (hv : v = 0 ∨ x.mem.kmem.IsObject v) (hf : x.VmaFree v y) :
    y.Inv := by
  cases hf with
  | null => exact h
  | kernel => exact h
  | closed => exact h
  | @freed m w hnull hkernel hopen hareas hfree =>
    -- a stale pointer would not have passed the test of `kernel_vma`
    have hl : v ∈ x.live := by
      by_contra hn
      have hblank := (h.blank (hv.resolve_left hnull) hn).2
      rw [hopen] at hblank
      exact h.pos h.kern hblank
    obtain ⟨chain, hs⟩ := h.slabs
    obtain ⟨hm, hclean, -⟩ := hareas.clean hs subset_rfl subset_rfl h.clean
    have hcleared : SlabMemory.Outside x.live m
        { m with bytes := m.bytes.memset v 0 sizeofVma } := by
      refine .write rfl rfl (fun _ _ => rfl) (fun _ _ => rfl) fun b => ?_
      rw [hm.objSize, Int.toNat_natCast]
      by_cases hb : v ≤ b ∧ b < v + sizeofVma
      · exact .inr (.inr ⟨v, hl, hb⟩)
      · left
        rcases not_and_or.1 hb with hb | hb
        · exact Bytes.memset_of_lt _ (by omega)
        · exact Bytes.memset_of_le _ (by omega)
    obtain ⟨hm', hclean'⟩ := hcleared.clean hm subset_rfl subset_rfl hclean
    obtain ⟨hs', hc'⟩ := SlabMemory.free_spec hm' sizeofVma_fits hclean' hl
      (Bytes.memset_zero hnull) hfree
    exact ⟨hs', hc', Finset.mem_erase.2 ⟨fun e => hkernel e.symm, h.kern⟩⟩

/-- The fields of a new address space are stored in its object. -/
theorem opened_spec {chain : ℕ → List ℕ} {m : SlabMemory A} {ret : ℕ}
    (hs : SlabsInv sizeofVma 0 chain (insert ret x.live) m.kmem) (hc : m.Clean x.live)
    (pgtable : ℕ) :
    SlabsInv sizeofVma 0 chain (insert ret x.live) (x.opened m ret pgtable).mem.kmem ∧
      (x.opened m ret pgtable).mem.Clean (insert ret x.live) := by
  have hstore : SlabMemory.Outside (insert ret x.live) m (x.opened m ret pgtable).mem := by
    refine .write rfl rfl (fun _ _ => rfl) (fun _ _ => rfl) fun b => ?_
    rw [hs.objSize, Int.toNat_natCast]
    by_cases hb : ret ≤ b ∧ b < ret + sizeofVma
    · exact .inr (.inr ⟨ret, Finset.mem_insert_self ret x.live, hb⟩)
    · left
      have hout : b < ret ∨ ret + sizeofVma ≤ b := by omega
      exact (Bytes.initVma_outside hout).trans (Bytes.store_outside _ (by decide) hout)
  exact hstore.clean hs subset_rfl subset_rfl (hc.mono (Finset.subset_insert ret x.live))

/-- When the loop of `vma_dup` ends, with or without an error. -/
theorem Inv.opened (h : x.Inv) {stack : ℕ → BitVec 8} {ret pgtable : ℕ} {m t w : SlabMemory A}
    (halloc : x.mem.kmemObjAlloc stack = some (some ret, m)) (htable : m.Elsewhere x.live t)
    (hareas : (x.opened t ret pgtable).mem.Elsewhere (insert ret x.live) w) :
    Inv { x.opened t ret pgtable with mem := w } := by
  obtain ⟨chain, hs⟩ := h.slabs
  obtain ⟨⟨chain', hm⟩, -, hclean, -⟩ :=
    SlabMemory.alloc_some_spec hs sizeofVma_fits.pos sizeofVma_fits.lt h.clean halloc
  obtain ⟨ht, htclean, -⟩ := htable.clean hm subset_rfl (Finset.subset_insert ret x.live) hclean
  obtain ⟨ho, hoclean⟩ := opened_spec ht htclean pgtable
  obtain ⟨hw, hwclean, -⟩ := hareas.clean ho subset_rfl subset_rfl hoclean
  exact ⟨⟨chain', hw⟩, hwclean, Finset.mem_insert_of_mem h.kern⟩

/-- `vma_dup` keeps the invariant: what it gives back was never stored in, or `vma_free` clears
it. -/
theorem Inv.vmaDup (h : x.Inv) {vmaCopied ret : ℕ} (hd : x.VmaDup vmaCopied ret y) : y.Inv := by
  obtain ⟨chain, hs⟩ := h.slabs
  have hsz := sizeofVma_fits
  cases hd with
  | refused => exact h
  | noObject _ halloc =>
    obtain ⟨hm, hclean⟩ := SlabMemory.alloc_none_spec hs hsz.pos hsz.lt h.clean halloc
    exact ⟨⟨chain, hm⟩, hclean, h.kern⟩
  | @noTable stack ret m t w _ halloc _ htable hfree =>
    obtain ⟨⟨chain', hm⟩, hfresh, hclean, -⟩ :=
      SlabMemory.alloc_some_spec hs hsz.pos hsz.lt h.clean halloc
    -- nobody stores in the new object while it waits for its page table
    obtain ⟨ht, htclean, -⟩ := htable.clean hm subset_rfl (Finset.subset_insert ret x.live) hclean
    have hmem := Finset.mem_insert_self ret x.live
    have hzero := htclean ret (ht.isObject hmem) hfresh
    rw [ht.objSize, Int.toNat_natCast] at hzero
    obtain ⟨hs', hc'⟩ := SlabMemory.free_spec
      (x := { t with bytes := t.bytes.store (ret + 16) 8 0 }) ht hsz
      (fun a ha hn => (htclean a ha fun hl => hn (Finset.mem_insert_of_mem hl)).store) hmem
      hzero.store hfree
    rw [Finset.erase_insert hfresh] at hs' hc'
    exact ⟨hs', hc', h.kern⟩
  | done _ halloc _ htable _ hareas => exact h.opened halloc htable hareas
  | @undone stack ret pgtable m t w y _ halloc _ htable _ hareas hfree =>
    have hinv := h.opened halloc htable hareas
    obtain ⟨chain', hw⟩ := hinv.slabs
    exact hinv.vmaFree (.inr (hw.isObject (Finset.mem_insert_self ret x.live))) hfree

theorem Inv.step (h : x.Inv) {a : Act} (hs : x.Step a y) : y.Inv := by
  cases hs with
  | vmaAlloc hd => exact h.vmaDup hd
  | vmaDup _ hd => exact h.vmaDup hd
  | vmaFree hv hf => exact h.vmaFree hv hf
  | mapping he =>
    obtain ⟨chain, hs⟩ := h.slabs
    obtain ⟨hm, hclean, -⟩ := he.clean hs subset_rfl subset_rfl h.clean
    exact ⟨⟨chain, hm⟩, hclean, h.kern⟩

/-- `vm_module_init` leaves clean objects besides `kern_vma`. -/
theorem Booted.inv {vmaCache : ℕ} (h : Booted vmaCache x) : x.Inv := by
  obtain ⟨hinit, hcache, halloc, hareas⟩ := h
  rename_i x₀ m t u w frames stack kernVma pgtable
  have hsz := sizeofVma_fits
  -- the slabs of `kmem_cache_init`
  obtain ⟨hclean, chain, hs⟩ : m.Clean ∅ ∧ ∃ chain, SlabsInv sizeofVma 0 chain ∅ m.kmem := by
    unfold SlabMemory.kmemCacheInit at hinit
    split_ifs at hinit with ha
    · split at hinit
      · cases hinit
      · rename_i v hv
        cases hinit
        exact SlabMemory.initLoop_clean ha.sized rfl frames _ ha.init_le m hv
      · split at hinit <;> cases hinit
    · cases hinit
  obtain ⟨ht, htclean, -⟩ := hcache.clean hs subset_rfl subset_rfl hclean
  obtain ⟨⟨chain', hu⟩, -, huclean, -⟩ :=
    SlabMemory.alloc_some_spec ht hsz.pos hsz.lt htclean halloc
  obtain ⟨ho, hoclean⟩ := opened_spec (x := ⟨u, ∅, kernVma⟩) hu huclean pgtable
  obtain ⟨hw, hwclean, -⟩ := hareas.clean ho subset_rfl subset_rfl hoclean
  exact ⟨⟨chain', hw⟩, hwclean, Finset.mem_singleton_self kernVma⟩

/-- In every run the invariant holds. -/
theorem inv_reachable (A : PageAllocator c) (vmaCache : ℕ) :
    ∀ x, (runs A vmaCache).Reachable x → x.Inv :=
  fun _ hx => hx.invariant (P := Inv) (fun _ h0 => Booted.inv h0) fun _ _ _ _ h hs => h.step hs

end VmaObjects

open VmaObjects

/-- In every state of a run the free objects of `vma_cache` have `hw_pgtable` and `kernel_vma` zero,
so the `ASSERT` behind `kmem_obj_alloc` holds, whichever allocations fail. -/
theorem vma_objects_clean (A : PageAllocator c) (vmaCache : ℕ) (x : VmaObjects A)
    (hx : (VmaObjects.runs A vmaCache).Reachable x) :
    (∀ v, x.Free v → x.mem.bytes.hwPgtable v = 0 ∧ x.mem.bytes.kernelVma v = 0) ∧
      ∀ stack ret m, x.mem.kmemObjAlloc stack = some (some ret, m) →
        m.bytes.hwPgtable ret = 0 ∧ m.bytes.kernelVma ret = 0 := by
  have h := inv_reachable A vmaCache x hx
  refine ⟨fun v hv => ?_, fun stack ret m halloc => ?_⟩
  · obtain ⟨hobject, hn⟩ := h.free_notMem hv
    exact h.blank hobject hn
  · obtain ⟨chain, hs⟩ := h.slabs
    -- an object that is handed out was a free one
    obtain ⟨-, -, -, hzero⟩ :=
      SlabMemory.alloc_some_spec hs sizeofVma_fits.pos sizeofVma_fits.lt h.clean halloc
    exact hzero.blank

/-- The two fields of a new address space. -/
theorem opened_fields {A : PageAllocator c} {x : VmaObjects A} (m : SlabMemory A) (ret : ℕ)
    {pgtable : ℕ} (hpgtable : pgtable < 2 ^ 64) (hkern : x.kernVma < 2 ^ 64) :
    (x.opened m ret pgtable).mem.bytes.hwPgtable ret = pgtable ∧
      (x.opened m ret pgtable).mem.bytes.kernelVma ret = x.kernVma := by
  unfold VmaObjects.opened Bytes.hwPgtable Bytes.kernelVma Bytes.initVma
  dsimp only
  constructor
  · rw [Bytes.load_store_apart _ (by omega), Bytes.load_store_apart _ (by omega),
      Bytes.load_store_apart _ (by omega), Bytes.load_store_apart _ (by omega),
      Bytes.load_store_apart _ (by omega), Bytes.load_store_apart _ (by omega),
      Bytes.load_store_apart _ (by omega), Bytes.load_store_of_lt hpgtable]
  · rw [Bytes.load_store_apart _ (by omega), Bytes.load_store_apart _ (by omega),
      Bytes.load_store_apart _ (by omega), Bytes.load_store_of_lt hkern]

/-- Four pages: three are slabs of `67` objects, the first of which is `kern_vma`.  The second one
becomes an address space, is freed and comes back clean, so a stale pointer to it is refused. -/
theorem vma_objects_clean_four_pages :
    let c := Layout.ofPages 1 4 (by decide) (by decide)
    let A := buddyAllocator c (FreeRange.all c) (by decide)
    let v := 2 ^ 31 + 364
    ∃ x y z : VmaObjects A, (VmaObjects.runs A 4096).init x ∧ x.kernVma = 2 ^ 31 + 308 ∧
      (VmaObjects.runs A 4096).Run x [.alloc v] y ∧ y.mem.bytes.hwPgtable v = 4096 ∧
      (VmaObjects.runs A 4096).Run y [.free v, .free v] z ∧ z.Free v ∧
      z.mem.bytes.hwPgtable v = 0 ∧ z.mem.bytes.kernelVma v = 0 := by
  intro c A v
  set x₀ : SlabMemory A := ⟨⟨bootState c _ _, fun _ => .handed 0,
    fun _ => ⟨0, 0, 0, 0, 0, 0, 0⟩, ⟨0, 0, 0, 0, 0, 0, [], [], []⟩⟩, fun _ => 0xFF⟩ with hx₀
  have hrun : ((x₀.kmem.kmemCacheInit (cacheArgs 4096) fun _ _ => 0).bind fun r =>
      (r.2.kmemObjAlloc fun _ => 0).bind fun r' => (r'.2.kmemObjAlloc fun _ => 0).bind fun r'' =>
        (r''.2.kmemObjFree v).map fun k => (r.1, r'.1, r''.1, k.cache.all.any fun p =>
          1 < (k.slabs p).objAll.toNat ∧ (k.slabs p).memIndexStart 1 ≠ -1 ∧
            (k.slabs p).obj 1 = v)) = some (0, some (2 ^ 31 + 308), some v, true) := by
    rw [hx₀]
    decide
  obtain ⟨⟨e, k₁⟩, hk₁, hrun⟩ := Option.bind_eq_some_iff.1 hrun
  obtain ⟨⟨kern, k₂⟩, hk₂, hrun⟩ := Option.bind_eq_some_iff.1 hrun
  obtain ⟨⟨ret, k₃⟩, hk₃, hrun⟩ := Option.bind_eq_some_iff.1 hrun
  obtain ⟨k₄, hk₄, hrets⟩ := Option.map_eq_some_iff.1 hrun
  dsimp only at hk₂ hk₃ hk₄ hrets
  rw [Prod.mk.injEq, Prod.mk.injEq, Prod.mk.injEq] at hrets
  obtain ⟨rfl, rfl, rfl, hany⟩ := hrets
  -- `vm_module_init`
  obtain ⟨m₁, hinit, rfl⟩ := SlabMemory.kmemCacheInit_of_kmem hk₁
  obtain ⟨m₂, hkern, rfl⟩ := SlabMemory.kmemObjAlloc_of_kmem hk₂
  set x : VmaObjects A := VmaObjects.opened ⟨m₂, ∅, 2 ^ 31 + 308⟩ m₂ (2 ^ 31 + 308) 4096
  have hx : (VmaObjects.runs A 4096).init x := .intro hinit .refl hkern .refl
  have hfields : x.mem.bytes.hwPgtable (2 ^ 31 + 308) = 4096 ∧
      x.mem.bytes.kernelVma (2 ^ 31 + 308) = 2 ^ 31 + 308 :=
    opened_fields m₂ _ (by norm_num) (show 2 ^ 31 + 308 < 2 ^ 64 by norm_num)
  -- `vma_alloc`
  obtain ⟨m₃, halloc, rfl⟩ := SlabMemory.kmemObjAlloc_of_kmem (x := x.mem) hk₃
  have hblank := (vma_objects_clean A 4096 x (.of_init hx)).2 _ _ m₃ halloc
  have haccepts : x.Accepts (2 ^ 31 + 308) := by
    rintro (h | h | h)
    · cases h
    · exact h hfields.2
    · rw [hfields.1] at h
      cases h
  set y : VmaObjects A := x.opened m₃ v 4096
  have hxy : (VmaObjects.runs A 4096).Run x [.alloc v] y :=
    .single (.vmaAlloc (.done haccepts halloc hblank .refl (by decide) .refl))
  have hopen : y.mem.bytes.hwPgtable v = 4096 ∧ y.mem.bytes.kernelVma v = 2 ^ 31 + 308 :=
    opened_fields m₃ v (by norm_num) (show 2 ^ 31 + 308 < 2 ^ 64 by norm_num)
  -- `vma_free`
  obtain ⟨w, hfree, rfl⟩ := SlabMemory.kmemObjFree_of_kmem
    (x := { m₃ with bytes := y.mem.bytes.memset v 0 sizeofVma }) hk₄
  set z : VmaObjects A := { y with mem := w, live := y.live.erase v }
  have hkern : y.kernVma = 2 ^ 31 + 308 := rfl
  have hy : (VmaObjects.runs A 4096).Reachable y := (System.Reachable.of_init hx).run hxy
  have hobject : y.mem.kmem.IsObject v := by
    obtain ⟨chain, hs⟩ := (inv_reachable A 4096 y hy).slabs
    exact hs.isObject (Finset.mem_insert_self v x.live)
  have hyz : (VmaObjects.runs A 4096).step y (.free v) z :=
    .vmaFree (.inr hobject)
      (.freed (by decide) (by rw [hkern]; decide) (hopen.2.trans hkern.symm) .refl hfree)
  have hz : (VmaObjects.runs A 4096).Reachable z := hy.step hyz
  have hzfree : z.Free v := by
    obtain ⟨p, hp, hi⟩ := List.any_eq_true.1 hany
    obtain ⟨hi, hmark, hobj⟩ := of_decide_eq_true hi
    exact ⟨p, hp, 1, hi, hmark, hobj.symm⟩
  have hclean := (vma_objects_clean A 4096 z hz).1 v hzfree
  have hzz : (VmaObjects.runs A 4096).step z (.free v) z := by
    refine .vmaFree (.inr ?_) (.closed ?_)
    · exact ((inv_reachable A 4096 z hz).free_notMem hzfree).1
    · rw [hclean.2]
      intro h
      cases h
  exact ⟨x, y, z, hx, rfl, hxy, hopen.1, (System.Run.single hyz).snoc hzz, hzfree, hclean⟩

end AcoOs
