/-
The start and the end of a slab cache.

When `kmem_cache_init` cannot get all the slabs it is asked for, and when `kmem_cache_deinit` is
called, every slab goes back to the buddy allocator (`freeSlabs_spec`).  In both cases some fields
of the cache are left behind.

* **`kmem_cache_init_clean_iff`** — the cache that a failed `kmem_cache_init` leaves is consistent
  just when no slab had been set up, since the counters are not reset with the list;
* **`kmem_cache_deinit_returns`** — `kmem_cache_deinit` gives every slab back once, and never clears
  the whole cache, since the size in its `memset` is that of the pointer.
-/
import AcoOs.SlabCalls

namespace AcoOs

open Machine

variable {c : Layout} {A : PageAllocator c}

/-! ### Giving slabs back -/

theorem PageAllocator.freePages_finite (s : A.State) : (A.freePages s).Finite :=
  (Set.finite_lt_nat c.pageNums).subset fun q hq => (A.wellFormed s).free_lt q hq

theorem ncard_pagesOf (p k : ℕ) : (pagesOf p k).ncard = 2 ^ k := by
  unfold pagesOf
  rw [← Finset.coe_Ico, Set.ncard_coe_finset, Nat.card_Ico, Nat.add_sub_cancel_left]

/-- The loop gives each block of the list back, and changes the type of its first page. -/
structure SlabsFreed (k : ℕ) (l : List ℕ) (x y : Kmem A) : Prop where
  once : l.foldlM A.free x.buddy = some y.buddy
  freePages : A.freePages y.buddy = A.freePages x.buddy ∪ ⋃ p ∈ l, pagesOf p k
  ncard : (A.freePages y.buddy).ncard = (A.freePages x.buddy).ncard + l.length * 2 ^ k
  pgtype : ∀ p ∈ l, (y.pages p).pgtype = .buddyAllocator
  pages : ∀ p, p ∉ l → y.pages p = x.pages p
  slabs : y.slabs = x.slabs
  cache : y.cache = { x.cache with free := l.foldl List.erase x.cache.free }

theorem freeSlabs_spec {k : ℕ} (l : List ℕ) : ∀ x : Kmem A, l.Nodup →
    (∀ p ∈ l, A.blocks x.buddy p = some k) → (∀ p ∈ l, (x.pages p).buddyFlags = flagHead) →
      ∃ y, x.freeSlabs l = some y ∧ SlabsFreed k l x y := by
  induction l with
  | nil =>
    intro x _ _ _
    exact ⟨x, rfl, rfl, by simp, by simp, fun p hp => absurd hp List.not_mem_nil, fun _ _ => rfl,
      rfl, rfl⟩
  | cons p l ih =>
    intro x hnd hblock hpage
    obtain ⟨hpl, hnd⟩ := List.nodup_cons.1 hnd
    have hb := hblock p List.mem_cons_self
    have hflags := hpage p List.mem_cons_self
    obtain ⟨b, hfree, hpages, hblocks⟩ := A.free_some hb
    set x' : Kmem A := { x with
      buddy := b
      pages := Function.update x.pages p { x.pages p with pgtype := .buddyAllocator }
      cache := { x.cache with free := x.cache.free.erase p } } with hx'
    have hne : ∀ q ∈ l, q ≠ p := by
      rintro q hq rfl
      exact hpl hq
    obtain ⟨y, hy, hfreed⟩ := ih x' hnd (fun q hq => by
        show A.blocks b q = some k
        rw [hblocks, Function.update_of_ne (hne q hq)]
        exact hblock q (List.mem_cons_of_mem p hq))
      (fun q hq => by
        show (Function.update x.pages p _ q).buddyFlags = flagHead
        rw [Function.update_of_ne (hne q hq)]
        exact hpage q (List.mem_cons_of_mem p hq))
    have hdisj : Disjoint (A.freePages x.buddy) (pagesOf p k) :=
      Set.disjoint_left.2 fun q hq hqp => (A.wellFormed x.buddy).not_free p k q hb hqp hq
    have hcard : (A.freePages b).ncard = (A.freePages x.buddy).ncard + 2 ^ k := by
      rw [hpages, Set.ncard_union_eq hdisj (A.freePages_finite _) (Set.finite_Ico _ _),
        ncard_pagesOf]
    have hrelease : Kmem.release { x with
        pages := Function.update x.pages p { x.pages p with pgtype := .buddyAllocator }
        cache := { x.cache with free := x.cache.free.erase p } } p = some x' := by
      unfold Kmem.release
      dsimp only
      rw [if_pos (by rw [Function.update_self]; exact ⟨rfl, hflags⟩), hfree]
    refine ⟨y, ?_, ?_, ?_, ?_, fun q hq => ?_, fun q hq => ?_, hfreed.slabs, hfreed.cache⟩
    · unfold Kmem.freeSlabs
      rw [if_pos hflags, hrelease]
      exact hy
    · rw [List.foldlM_cons, hfree]
      exact hfreed.once
    · rw [hfreed.freePages]
      show A.freePages b ∪ _ = _
      rw [hpages, Set.union_assoc]
      congr 1
      ext q
      simp
    · rw [hfreed.ncard]
      show (A.freePages b).ncard + _ = _
      rw [hcard, List.length_cons]
      ring
    · by_cases hql : q ∈ l
      · exact hfreed.pgtype q hql
      · rw [(List.mem_cons.1 hq).resolve_right hql]
        rw [hfreed.pages p hpl]
        show (Function.update x.pages p _ p).pgtype = _
        rw [Function.update_self]
    · rw [List.mem_cons, not_or] at hq
      rw [hfreed.pages q hq.2]
      exact Function.update_of_ne hq.1 ..

theorem foldl_erase_self (l : List ℕ) : l.foldl List.erase l = [] := by
  induction l with
  | nil => rfl
  | cons p l ih =>
    rw [List.foldl_cons, List.erase_cons_head]
    exact ih

/-! ### `kmem_cache_init` that fails -/

/-- What `kmem_cache_init` that returns `-ENOMEM` should leave: what it took is free again, and the
counters are those of the lists. -/
structure CleanFailure (x y : Kmem A) : Prop where
  freePages : A.freePages y.buddy = A.freePages x.buddy
  pgtype : ∀ q, (x.pages q).pgtype = .buddyAllocator ∨ y.pages q ≠ x.pages q →
    (y.pages q).pgtype = .buddyAllocator
  objNum : y.cache.objNum = (y.cache.all.map fun p => (y.slabs p).objFree).sum
  pgOrhas : y.cache.pgOrhas = y.cache.all.length

/-- `kmem_cache_init` leaves a consistent cache when it fails. -/
def InitClean (x : Kmem A) (a : KmemArgs) (stack : ℕ → ℕ → BitVec 8) : Prop :=
  ∀ ret y, x.kmemCacheInit a stack = some (ret, y) →
    (ret = -enomem → CleanFailure x y) ∧ (ret = -efault → y = x)

/-- All slabs that are asked for can be set up, or not even the first one. -/
def KmemArgs.AllOrNothing (a : KmemArgs) (A : PageAllocator c) (s : A.State) : Prop :=
  a.Accepted c → a.pgOrder ≤ 18 → 0 < slabObjs (orderBytes a.pgOrder.toNat) a.objSize.toNat →
    (A.alloc s a.pgOrder).1 ≠ none → ∃ t, A.Grants a.pgOrder a.initPgorAlloc.toNat s t

/-- A loop of allocations that all succeed starts with one that does. -/
theorem PageAllocator.Grants.first {k : ℤ} {n : ℕ} {s t : A.State} (h : A.Grants k (n + 1) s t) :
    (A.alloc s k).1 ≠ none := by
  induction n generalizing t with
  | zero =>
    obtain ⟨u, p, hu, ha⟩ := h
    rw [show u = s from hu] at ha
    rw [ha]
    exact Option.some_ne_none p
  | succ n ih =>
    obtain ⟨u, p, hu, -⟩ := h
    exact ih hu

/-- The first `m` of `n` allocations in a row, and the next one. -/
theorem PageAllocator.Grants.next {k : ℤ} {n m : ℕ} {s t u : A.State} (h : A.Grants k n s t)
    (hu : A.Grants k m s u) (hm : m < n) : (A.alloc u k).1 ≠ none := by
  obtain ⟨v, w, p, hv, ha⟩ := h.prefix (m := m + 1) hm
  rw [hu.unique hv] at ha
  rw [ha]
  exact Option.some_ne_none p

namespace Loaded

variable {z k n : ℕ} {x y w : Kmem A}

/-- The way out of `kmem_cache_init` gives everything back, and leaves the counters as they are. -/
theorem failed_spec (h : Loaded z k x y n) (hw : SlabRefused k y w) :
    ∃ v, w.freeSlabs w.cache.free = some v ∧ A.freePages v.buddy = A.freePages x.buddy ∧
      (∀ q, (x.pages q).pgtype = .buddyAllocator ∨ v.pages q ≠ x.pages q →
        (v.pages q).pgtype = .buddyAllocator) ∧
      v.cache = { y.cache with free := [] } := by
  obtain ⟨chain, hs⟩ := h.slabs
  have hws := hs.growFailed hw
  have hall : w.cache.all = w.cache.free := by
    rw [hw.cache]
    exact h.all_eq
  obtain ⟨v, hv, hfreed⟩ := freeSlabs_spec w.cache.free w (hall ▸ hws.nodup)
    (fun p hp => hws.block p (hall ▸ hp)) fun p hp => (hws.page p (hall ▸ hp)).2
  refine ⟨v, hv, ?_, fun q hq => ?_, ?_⟩
  · rw [hfreed.freePages, hw.freePages, hw.cache]
    exact h.freePages
  · by_cases hmem : q ∈ w.cache.free
    · exact hfreed.pgtype q hmem
    · -- not a slab: as before, or the page of the allocation that was refused
      rw [hfreed.pages q hmem] at hq ⊢
      rw [hw.cache] at hmem
      have hsame := h.pages q hmem
      rcases hw.pages q with hwq | ⟨-, hwq⟩
      · rw [hwq, hsame] at hq ⊢
        exact hq.resolve_right fun hne => hne rfl
      · rw [hwq]
        rfl
  · rw [hfreed.cache, foldl_erase_self, hw.cache]

end Loaded

/-- A failed `kmem_cache_init` gives every page back, but the counters of the slabs it had set up
stay behind: the cache is consistent just when all slabs can be set up or not even the first one. -/
theorem kmem_cache_init_clean_iff (x : Kmem A) (a : KmemArgs) (stack : ℕ → ℕ → BitVec 8) :
    InitClean x a stack ↔ a.AllOrNothing A x.buddy := by
  unfold InitClean
  by_cases ha : a.Accepted c
  · obtain ⟨hk0, hz0⟩ : (a.pgOrder.toNat : ℤ) = a.pgOrder ∧ (a.objSize.toNat : ℤ) = a.objSize :=
      ⟨ha.sized.pgOrder.symm, ha.sized.objSize.symm⟩
    have hinit := @kmemCacheInit_eq _ _ x a stack ha
    rcases initLoop_loaded ha.sized { x with cache := a.cache } rfl stack a.initPgorAlloc.toNat
      ha.init_le with ⟨hn, hk⟩ | ⟨n, hlt, y, w, hw, hload, hfail, hwhy⟩ | ⟨y, hy, hload⟩
    · -- an `ASSERT` failed
      rw [hn] at hinit
      refine iff_of_true (fun ret y hy => ?_) fun _ hk' => ?_
      · rw [hinit] at hy
        cases hy
      · omega
    · obtain ⟨v, hv, hpages, hpg, hcache⟩ := hload.failed_spec hfail
      rw [hw] at hinit
      dsimp only at hinit
      rw [hv] at hinit
      have hgrants := hload.grants
      rw [hk0] at hgrants hwhy
      rcases Nat.eq_zero_or_pos n with rfl | hn
      · -- nothing had been set up
        obtain ⟨chain, hs⟩ := hload.slabs
        have hnil : y.cache.free = [] := List.length_eq_zero_iff.1 hload.length
        have hall : v.cache.all = [] := by
          rw [hcache]
          unfold KmemCache.all
          dsimp only
          rw [hload.partialSlabs, hload.full]
          rfl
        refine iff_of_true (fun ret u hu => ?_) fun _ _ hpos hsome => ?_
        · rw [hinit] at hu
          cases hu
          refine ⟨fun _ => ⟨hpages, hpg, ?_, ?_⟩, fun he => absurd he (by decide)⟩
          · rw [hall, hcache]
            dsimp only
            rw [hs.objNum]
            unfold KmemCache.freeCount
            rw [hload.all_eq, hnil, List.map_nil, List.map_nil]
            decide
          · rw [hall, hcache]
            exact hload.pgOrhas
        · rcases hwhy with hnone | h0
          · rw [show y.buddy = x.buddy from hgrants] at hnone
            exact absurd hnone hsome
          · omega
      · -- the counter still has the slabs that are gone
        obtain ⟨hk18, hpos⟩ := hload.sized (by omega)
        refine iff_of_false (fun hclean => ?_) fun hall => ?_
        · have hbad := ((hclean _ _ hinit).1 rfl).pgOrhas
          rw [hcache] at hbad
          unfold KmemCache.all at hbad
          dsimp only at hbad
          rw [hload.pgOrhas, hload.partialSlabs, hload.full] at hbad
          rw [List.append_nil, List.append_nil, List.length_nil] at hbad
          omega
        · obtain ⟨m, rfl⟩ : ∃ m, n = m + 1 := ⟨n - 1, by omega⟩
          obtain ⟨t, ht⟩ := hall ha (by omega) hpos hgrants.first
          exact ht.next hgrants hlt (hwhy.resolve_right hpos.ne')
    · -- all slabs were set up
      rw [hy] at hinit
      refine iff_of_true (fun ret u hu => ?_) fun _ _ _ _ => ⟨y.buddy, ?_⟩
      · rw [hinit] at hu
        cases hu
        exact ⟨fun he => absurd he (by decide), fun he => absurd he (by decide)⟩
      · have hgrants := hload.grants
        rwa [hk0] at hgrants
  · have hinit : x.kmemCacheInit a stack = some (-efault, x) := if_pos (not_not.1 ha)
    refine iff_of_true (fun ret y hy => ?_) fun h => absurd h ha
    rw [hinit] at hy
    cases hy
    exact ⟨fun he => absurd he (by decide), fun _ => rfl⟩

/-- One page and a cache that asks for two slabs. -/
theorem not_kmem_cache_init_clean :
    let c := Layout.ofPages 1 1 (by decide) (by decide)
    let A := buddyAllocator c (FreeRange.all c) (by decide)
    ∃ x : Kmem A, ¬ InitClean x ⟨4096, 2000, 0, 2, 2⟩ fun _ _ => 0 := by
  intro c A
  set x₀ : Kmem A := ⟨bootState c _ _, fun _ => .handed 0, fun _ => ⟨0, 0, 0, 0, 0, 0, 0⟩,
    ⟨0, 0, 0, 0, 0, 0, [], [], []⟩⟩ with hx₀
  have hrun : ((x₀.kmemCacheInit ⟨4096, 2000, 0, 2, 2⟩ fun _ _ => 0).map fun r =>
      (r.1, r.2.cache.all, r.2.cache.objNum, r.2.cache.pgOrhas)) = some (-enomem, [], 2, 1) := by
    rw [hx₀]
    decide
  obtain ⟨⟨ret, y⟩, hinit, hr⟩ := Option.map_eq_some_iff.1 hrun
  rw [Prod.mk.injEq, Prod.mk.injEq, Prod.mk.injEq] at hr
  obtain ⟨hret, hall, -, hhas⟩ := hr
  refine ⟨x₀, fun hclean => ?_⟩
  have hbad := ((hclean ret y hinit).1 hret).pgOrhas
  rw [hhas, hall] at hbad
  exact absurd hbad (by decide)

/-! ### `kmem_cache_deinit` -/

/-- `kmem_cache_deinit` gave every slab back, once. -/
structure SlabsReturned (x y : Kmem A) : Prop where
  once : x.cache.all.Nodup ∧ x.cache.all.foldlM A.free x.buddy = some y.buddy
  freePages : A.freePages y.buddy =
    A.freePages x.buddy ∪ ⋃ p ∈ x.cache.all, pagesOf p x.cache.pgOrder.toNat
  ncard : ((A.freePages y.buddy).ncard : ℤ) =
    (A.freePages x.buddy).ncard + x.cache.pgOrhas * 2 ^ x.cache.pgOrder.toNat
  pgtype : ∀ p ∈ x.cache.all, (y.pages p).pgtype = .buddyAllocator

/-- The `int`s of the structure are zero. -/
structure KmemCache.Cleared (m : KmemCache) : Prop where
  objNum : m.objNum = 0
  objSize : m.objSize = 0
  pgOrder : m.pgOrder = 0
  pgOrlimit : m.pgOrlimit = 0
  pgOrhas : m.pgOrhas = 0
  colorOffset : m.colorOffset = 0

/-- `kmem_cache_deinit` undoes `kmem_cache_init`. -/
def DeinitUndoes (x : Kmem A) : Prop :=
  ∃ y, x.kmemCacheDeinit = some y ∧ SlabsReturned x y ∧ y.cache.Cleared

namespace SlabsInv

variable {z k : ℕ} {chain : ℕ → List ℕ} {x : Kmem A}

/-- When no object is handed out, every slab is in the list of the free ones. -/
theorem mem_free (h : SlabsInv z k chain ∅ x) {p : ℕ} (hp : p ∈ x.cache.all) :
    p ∈ x.cache.free := by
  rw [h.free_iff p hp]
  have hq := (h.slab p hp).queue
  refine le_antisymm hq.length_le (not_lt.1 fun hlt => ?_)
  -- an index outside the chain would be an object handed out
  obtain ⟨i, hi, hn⟩ : ∃ i < slabObjs (orderBytes k) z, i ∉ chain p := by
    by_contra hno
    push Not at hno
    have hsub : List.range (slabObjs (orderBytes k) z) ⊆ chain p := fun i hi =>
      hno i (List.mem_range.1 hi)
    have hle := (List.subperm_of_subset List.nodup_range hsub).length_le
    rw [List.length_range] at hle
    omega
  exact Finset.notMem_empty _ ((h.live_iff _).2 ⟨p, hp, i, hi, hn, rfl⟩)

theorem lists_of_empty (h : SlabsInv z k chain ∅ x) :
    x.cache.partialSlabs = [] ∧ x.cache.full = [] := by
  have hnd := h.nodup
  unfold KmemCache.all at hnd
  rw [List.nodup_append, List.nodup_append] at hnd
  constructor
  · refine List.eq_nil_iff_forall_not_mem.2 fun p hp => ?_
    exact hnd.1.2.2 p (h.mem_free (mem_all.2 (.inr (.inl hp)))) p hp rfl
  · refine List.eq_nil_iff_forall_not_mem.2 fun p hp => ?_
    exact hnd.2.2 p (List.mem_append_left _ (h.mem_free (mem_all.2 (.inr (.inr hp))))) p hp rfl

/-- `kmem_cache_deinit` of a cache all of whose objects are free. -/
theorem kmemCacheDeinit_spec (h : SlabsInv z k chain ∅ x) :
    ∃ y, x.kmemCacheDeinit = some y ∧ SlabsReturned x y ∧ y.cache.objSize = z := by
  obtain ⟨hpart, hfull⟩ := h.lists_of_empty
  have hall : x.cache.free = x.cache.all := by
    unfold KmemCache.all
    rw [hpart, hfull, List.append_nil, List.append_nil]
  obtain ⟨y, hy, hfreed⟩ := freeSlabs_spec x.cache.free x (hall ▸ h.nodup)
    (fun p hp => h.block p (hall ▸ hp)) fun p hp => (h.page p (hall ▸ hp)).2
  rw [hall] at hfreed
  refine ⟨{ y with cache := { y.cache with objNum := 0 } }, ?_, ⟨⟨h.nodup, hfreed.once⟩, ?_, ?_,
    hfreed.pgtype⟩, ?_⟩
  · unfold Kmem.kmemCacheDeinit
    rw [if_pos ⟨hfull, hpart⟩, hy]
  · rw [h.pgOrder, Int.toNat_natCast]
    exact hfreed.freePages
  · rw [h.pgOrder, Int.toNat_natCast, h.pgOrhas]
    dsimp only
    rw [hfreed.ncard]
    push_cast
    ring
  · show y.cache.objSize = z
    rw [hfreed.cache]
    exact h.objSize

end SlabsInv

/-- When no object is handed out `kmem_cache_deinit` returns, and every slab is given back once, but
it never clears the structure. -/
theorem kmem_cache_deinit_returns (A : PageAllocator c) (a : KmemArgs) (x : KmemRun A)
    (hx : (kmemRuns A a).Reachable x) (h : x.live = ∅) :
    (∃ y, x.kmem.kmemCacheDeinit = some y ∧ SlabsReturned x.kmem y) ∧ ¬ DeinitUndoes x.kmem := by
  obtain ⟨ha, chain, hs, -⟩ := slabs_reachable A a x hx
  rw [h] at hs
  obtain ⟨y, hy, hret, hsize⟩ := hs.kmemCacheDeinit_spec
  refine ⟨⟨y, hy, hret⟩, ?_⟩
  -- `obj_size` is still the size of the objects
  rintro ⟨w, hw, -, hclear⟩
  rw [hy] at hw
  cases hw
  have hpos := ha.sized.pos
  have hzero := hclear.objSize
  rw [hsize] at hzero
  omega

/-- A cache of one page whose only object went out and came back. -/
theorem kmemRuns_one_page_back :
    let c := Layout.ofPages 1 1 (by decide) (by decide)
    let A := buddyAllocator c (FreeRange.all c) (by decide)
    ∃ x, (kmemRuns A ⟨4096, 2000, 0, 1, 1⟩).Reachable x ∧ x.live = ∅ := by
  intro c A
  obtain ⟨x, hx, hlive⟩ := kmemRuns_one_page
  have hx := hx.of_restrict
  obtain ⟨ha, chain, hs, hk⟩ := slabs_reachable A _ x hx
  have hmem : 2 ^ 31 + 48 ∈ x.live := by
    rw [hlive]
    exact Finset.mem_singleton_self _
  obtain ⟨p, hp, -⟩ := (hs.live_iff _).1 hmem
  obtain ⟨y, chain', hy, -⟩ := hs.kmemObjFree_spec ⟨ha.sized.pos, ha.sized.lt,
    hk (List.ne_nil_of_mem hp)⟩ hmem
  refine ⟨⟨y, x.live.erase (2 ^ 31 + 48)⟩, hx.step (.free hmem hy), ?_⟩
  rw [hlive]
  rfl

/-- The slab of this cache goes back. -/
theorem kmem_cache_deinit_returns_one_page :
    let c := Layout.ofPages 1 1 (by decide) (by decide)
    let A := buddyAllocator c (FreeRange.all c) (by decide)
    ∃ x, (kmemRuns A ⟨4096, 2000, 0, 1, 1⟩).Reachable x ∧ x.live = ∅ ∧
      (∃ y, x.kmem.kmemCacheDeinit = some y ∧ SlabsReturned x.kmem y) ∧
      ¬ DeinitUndoes x.kmem := by
  intro c A
  obtain ⟨x, hx, hlive⟩ := kmemRuns_one_page_back
  exact ⟨x, hx, hlive, kmem_cache_deinit_returns A _ x hx hlive⟩

/-- The size of the objects is still there. -/
theorem not_kmem_cache_deinit_clears :
    let c := Layout.ofPages 1 1 (by decide) (by decide)
    let A := buddyAllocator c (FreeRange.all c) (by decide)
    ¬ ∀ x, (kmemRuns A ⟨4096, 2000, 0, 1, 1⟩).Reachable x → x.live = ∅ → DeinitUndoes x.kmem := by
  intro c A hall
  obtain ⟨x, hx, hlive⟩ := kmemRuns_one_page_back
  obtain ⟨ha, chain, hs, -⟩ := slabs_reachable A _ x hx
  rw [hlive] at hs
  obtain ⟨y, hy, -, hsize⟩ := hs.kmemCacheDeinit_spec
  obtain ⟨w, hw, -, hclear⟩ := hall x hx hlive
  rw [hy] at hw
  cases hw
  exact absurd (hsize.symm.trans hclear.objSize) (by decide)

end AcoOs
