/-
Runs of a slab cache.

`kmemRuns A a` starts in the states in which `kmem_cache_init` has returned `0` for the
arguments `a`, and takes one call of `kmem_obj_alloc` or of `kmem_obj_free` (of an object
that is handed out) at each step, or a step of somebody else who uses the page allocator.

`slab_cache`: every state of a run represents the cache and the objects handed out, as
long as the size of a slab and the number of free objects fit into an `int`.
-/
import AcoOs.SlabInvariant

namespace AcoOs

open IndexQueue Machine

variable {c : Layout} {A : PageAllocator c}

/-- A cache between two calls, with the addresses of the objects that are handed out. -/
structure KmemRun (A : PageAllocator c) where
  kmem : Kmem A
  live : Finset ℕ

/-- The steps: the calls with their results, and what other clients do. -/
inductive KmemAct
  | alloc (ret : Option ℕ)
  | free (address : ℕ)
  | other

/-- One step of a run. -/
inductive KmemStep : KmemRun A → KmemAct → KmemRun A → Prop
  | allocSome {x : KmemRun A} {stack : ℕ → BitVec 8} {a : ℕ} {y : Kmem A}
      (h : x.kmem.kmemObjAlloc stack = some (some a, y)) :
      KmemStep x (.alloc (some a)) ⟨y, insert a x.live⟩
  | allocNone {x : KmemRun A} {stack : ℕ → BitVec 8} {y : Kmem A}
      (h : x.kmem.kmemObjAlloc stack = some (none, y)) : KmemStep x (.alloc none) ⟨y, x.live⟩
  | free {x : KmemRun A} {a : ℕ} {y : Kmem A} (ha : a ∈ x.live)
      (h : x.kmem.kmemObjFree a = some y) : KmemStep x (.free a) ⟨y, x.live.erase a⟩
  | other {x : KmemRun A} {y : Kmem A} (hcache : y.cache = x.kmem.cache)
      (hblock : ∀ p ∈ x.kmem.cache.all, A.blocks y.buddy p = A.blocks x.kmem.buddy p)
      (hpage : ∀ p ∈ x.kmem.cache.all, y.pages p = x.kmem.pages p)
      (hslab : ∀ p ∈ x.kmem.cache.all, y.slabs p = x.kmem.slabs p) :
      KmemStep x .other ⟨y, x.live⟩

/-- The runs after `kmem_cache_init` returned `0`. -/
def kmemRuns (A : PageAllocator c) (a : KmemArgs) : System (KmemRun A) KmemAct where
  init x := (∃ x₀ stack, Kmem.kmemCacheInit x₀ a stack = some (0, x.kmem)) ∧ x.live = ∅
  step := KmemStep

/-! ### Initialization -/

/-- A slab and the objects of the first slabs fit into an `int`. -/
structure KmemArgs.Fits (a : KmemArgs) : Prop where
  order_le : a.pgOrder ≤ 18
  objs_lt : a.initPgorAlloc.toNat * slabObjs (orderBytes a.pgOrder.toNat) a.objSize.toNat <
    2 ^ 31

/-- A cache without slabs. -/
theorem cacheInv_empty {z k : ℕ} {x : Kmem A} (hz : x.cache.objSize = z)
    (hk : x.cache.pgOrder = k) (hall : x.cache.all = []) (hhas : x.cache.pgOrhas = 0)
    (hlim : 0 ≤ x.cache.pgOrlimit) (hnum : x.cache.objNum = 0) :
    CacheInv z k (fun _ => []) ∅ x := by
  have hnot : ∀ p, p ∉ x.cache.all := by simp [hall]
  exact ⟨hz, hk, by simp [hall], by simp [hall, hhas], by omega, fun p hp => absurd hp (hnot p),
    fun p hp => absurd hp (hnot p), fun p hp => absurd hp (hnot p),
    fun p hp => absurd hp (hnot p), fun p hp => absurd hp (hnot p),
    fun p hp => absurd hp (hnot p), by simp [hall, hnum], by omega,
    fun a => iff_of_false (Finset.notMem_empty a) fun ⟨p, hp, _⟩ => hnot p hp⟩

/-- The loop of `kmem_cache_init` after `i` iterations. -/
theorem initLoop_spec {z k : ℕ} {x : Kmem A} (hsz : SlabSize z k)
    (h : CacheInv z k (fun _ => []) ∅ x) (hhas : x.cache.pgOrhas = 0)
    (hnum : x.cache.objNum = 0) (stack : ℕ → ℕ → BitVec 8) :
    ∀ i : ℕ, i ≤ x.cache.pgOrlimit → i * slabObjs (orderBytes k) z < 2 ^ 31 →
      (∃ y, x.initLoop stack i = some (false, y)) ∨
      ∃ y chain, x.initLoop stack i = some (true, y) ∧ CacheInv z k chain ∅ y ∧
        y.cache.pgOrhas = i ∧ y.cache.objNum = i * slabObjs (orderBytes k) z ∧
        y.cache.pgOrlimit = x.cache.pgOrlimit := by
  intro i
  induction i with
  | zero =>
    intro _ _
    exact .inr ⟨x, _, rfl, h, hhas, by simpa using hnum, rfl⟩
  | succ i ih =>
    intro hi hlt
    have hexp : (i + 1) * slabObjs (orderBytes k) z =
        i * slabObjs (orderBytes k) z + slabObjs (orderBytes k) z := by ring
    rw [hexp] at hlt
    unfold Kmem.initLoop
    rcases ih (by omega) (by omega) with ⟨y, hy⟩ | ⟨y, chain, hy, hinv, hyhas, hynum, hylim⟩
    · rw [hy]
      exact .inl ⟨y, rfl⟩
    · rw [hy]
      have hyn : y.cache.objNum + slabObjs (orderBytes k) z < 2 ^ 31 := by
        rw [hynum]
        exact_mod_cast hlt
      rcases hinv.grow_spec hsz (stack i) (by omega) hyn with ⟨w, hw, -, -⟩ |
        ⟨w, chain', hw, hwinv, -, hwnum, hwhas, hwlim⟩
      · exact .inl ⟨w, hw⟩
      · refine .inr ⟨w, chain', hw, hwinv, ?_, ?_, hwlim.trans hylim⟩
        · rw [hwhas, hyhas]
          rfl
        · rw [hwnum, hynum]
          push_cast
          ring

/-- A cache `kmem_cache_init` has returned `0` for. -/
theorem kmemCacheInit_spec {a : KmemArgs} (hfit : a.Fits) {x y : Kmem A}
    {stack : ℕ → ℕ → BitVec 8} (h : x.kmemCacheInit a stack = some (0, y)) :
    SlabSize a.objSize.toNat a.pgOrder.toNat ∧
      ∃ chain, CacheInv a.objSize.toNat a.pgOrder.toNat chain ∅ y := by
  obtain ⟨hord, hobjs⟩ := hfit
  unfold Kmem.kmemCacheInit at h
  split_ifs at h with hargs
  · cases h
  · push Not at hargs
    obtain ⟨-, hobj, hk, hlim, hinit, hle, hsize⟩ := hargs
    have hsz : SlabSize a.objSize.toNat a.pgOrder.toNat := ⟨by omega, by omega, by omega⟩
    refine ⟨hsz, ?_⟩
    set x' : Kmem A := { x with cache :=
        { objNum := 0, objSize := a.objSize, pgOrder := a.pgOrder, pgOrlimit := a.pgorLimit
          pgOrhas := 0, colorOffset := a.kmmCache % 2 ^ 31
          free := [], full := [], partialSlabs := [] } } with hx'
    have hempty : CacheInv a.objSize.toNat a.pgOrder.toNat (fun _ => []) ∅ x' := by
      refine cacheInv_empty ?_ ?_ rfl rfl ?_ rfl
      · rw [Int.toNat_of_nonneg (by omega)]
      · rw [Int.toNat_of_nonneg hk.1]
      · exact hlim.le
    rcases initLoop_spec hsz hempty rfl rfl stack a.initPgorAlloc.toNat
      (by change ((a.initPgorAlloc.toNat : ℕ) : ℤ) ≤ a.pgorLimit; omega) hobjs with
      ⟨w, hw⟩ | ⟨w, chain, hw, hinv, -⟩
    · rw [hw] at h
      dsimp only at h
      split at h <;> cases h
    · rw [hw] at h
      cases h
      exact ⟨chain, hinv⟩

/-! ### Runs -/

/-- A call of `kmem_obj_free` that counts one more free object than an `int` can. -/
def KmemRun.FreeFits (x : KmemRun A) (a : KmemAct) : Prop :=
  (∃ address, a = .free address) → x.kmem.cache.objNum < 2 ^ 31 - 1

/-- What the lists, the counters and the chains of a cache say about the objects handed
out; `chain p` are the free objects of the slab of page `p`. -/
structure CacheState (chain : ℕ → List ℕ) (x : KmemRun A) : Prop where
  -- the three lists are disjoint and hold `pg_orhas` slabs
  nodup : x.kmem.cache.all.Nodup
  pgOrhas : x.kmem.cache.pgOrhas = x.kmem.cache.all.length
  pgOrhas_le : x.kmem.cache.pgOrhas ≤ x.kmem.cache.pgOrlimit
  owned : ∀ p ∈ x.kmem.cache.all,
    A.blocks x.kmem.buddy p = some x.kmem.cache.pgOrder.toNat
  -- a slab is in the list its counter says
  free_iff : ∀ p ∈ x.kmem.cache.all, p ∈ x.kmem.cache.free ↔
    (x.kmem.slabs p).objFree = (x.kmem.slabs p).objAll
  full_iff : ∀ p ∈ x.kmem.cache.all, p ∈ x.kmem.cache.full ↔ (x.kmem.slabs p).objFree = 0
  partial_iff : ∀ p ∈ x.kmem.cache.all, p ∈ x.kmem.cache.partialSlabs ↔
    0 < (x.kmem.slabs p).objFree ∧ (x.kmem.slabs p).objFree < (x.kmem.slabs p).objAll
  objNum : x.kmem.cache.objNum = (x.kmem.cache.all.map fun p => (x.kmem.slabs p).objFree).sum
  -- the chain of a slab holds its free objects, and the other entries are `-1`
  chain_spec : ∀ p ∈ x.kmem.cache.all, (x.kmem.slabs p).objFree = (chain p).length ∧
    Queue (x.kmem.slabs p).objAll.toNat (x.kmem.slabs p).memIndexStart
      (x.kmem.slabs p).memFreeHead (x.kmem.slabs p).memFreeTail (chain p)
  -- the objects handed out are the others, and no two objects overlap
  live_iff : ∀ a, a ∈ x.live ↔ ∃ p ∈ x.kmem.cache.all,
    ∃ i < (x.kmem.slabs p).objAll.toNat, i ∉ chain p ∧ a = (x.kmem.slabs p).obj i
  apart : ∀ p ∈ x.kmem.cache.all, ∀ q ∈ x.kmem.cache.all,
    ∀ i < (x.kmem.slabs p).objAll.toNat, ∀ j < (x.kmem.slabs q).objAll.toNat,
      (p, i) ≠ (q, j) →
      (x.kmem.slabs p).obj i + x.kmem.cache.objSize.toNat ≤ (x.kmem.slabs q).obj j ∨
        (x.kmem.slabs q).obj j + x.kmem.cache.objSize.toNat ≤ (x.kmem.slabs p).obj i
  -- no `ASSERT` fails, and no object is handed out twice
  alloc : ∀ stack, ∃ ret y, x.kmem.kmemObjAlloc stack = some (ret, y) ∧
    ∀ a, ret = some a → a ∉ x.live
  free : ∀ a ∈ x.live, ∃ y, x.kmem.kmemObjFree a = some y

namespace CacheInv

variable {z k : ℕ} {chain : ℕ → List ℕ} {live : Finset ℕ} {x : Kmem A}

theorem cacheState (h : CacheInv z k chain live x) (hsz : SlabSize z k) :
    CacheState chain ⟨x, live⟩ := by
  have hall : ∀ p ∈ x.cache.all, (x.slabs p).objAll.toNat = slabObjs (orderBytes k) z := by
    intro p hp
    rw [(h.slab p hp).objAll, Int.toNat_natCast]
  refine ⟨h.nodup, h.pgOrhas, h.pgOrhas_le, fun p hp => ?_, fun p hp => ?_, fun p hp => ?_,
    fun p hp => ?_, ?_, fun p hp => ⟨(h.slab p hp).objFree, ?_⟩, fun a => ?_,
    fun p hp q hq i hi j hj hne => ?_, fun stack => ?_, fun a ha => ?_⟩ <;> dsimp only at *
  · rw [h.pgOrder, Int.toNat_natCast]
    exact h.block p hp
  · rw [h.free_iff p hp, (h.slab p hp).objFree, (h.slab p hp).objAll, Nat.cast_inj]
  · rw [h.full_iff p hp, (h.slab p hp).objFree, Nat.cast_eq_zero]
  · have hle := (h.slab p hp).queue.length_le
    rw [h.slabsInv.partial_iff hp, (h.slab p hp).objFree, (h.slab p hp).objAll]
    omega
  · have hsame : x.cache.all.map (fun p => (x.slabs p).objFree) =
        x.cache.all.map fun p => ((chain p).length : ℤ) :=
      List.map_congr_left fun p hp => (h.slab p hp).objFree
    rw [hsame, h.objNum, Nat.cast_list_sum, List.map_map]
    rfl
  · rw [hall p hp]
    exact (h.slab p hp).queue
  · rw [h.live_iff]
    constructor
    · rintro ⟨p, hp, i, hi, hn, rfl⟩
      exact ⟨p, hp, i, by rwa [hall p hp], hn, rfl⟩
    · rintro ⟨p, hp, i, hi, hn, rfl⟩
      rw [hall p hp] at hi
      exact ⟨p, hp, i, hi, hn, rfl⟩
  · rw [hall p hp] at hi
    rw [hall q hq] at hj
    rw [h.objSize, Int.toNat_natCast]
    by_cases hpq : p = q
    · subst hpq
      have hij : i ≠ j := fun e => hne (by rw [e])
      rcases Nat.lt_or_gt_of_ne hij with hlt | hlt
      · exact .inl ((h.slab p hp).obj_apart hlt)
      · exact .inr ((h.slab p hp).obj_apart hlt)
    · have h1 := (h.slab p hp).obj_within hi
      have h2 := (h.slab q hq).obj_within hj
      have h3 := A.block_apart (h.block p hp) (h.block q hq) hpq
      omega
  · rcases h.kmemObjAlloc_spec hsz stack with ⟨y, hy, -⟩ | ⟨a, y, -, hy, hfresh, -, -⟩
    · exact ⟨none, y, hy, fun a ha => by cases ha⟩
    · refine ⟨some a, y, hy, fun b hb => ?_⟩
      cases hb
      exact hfresh
  · obtain ⟨y, hy, -⟩ := h.kmemObjFree_spec hsz ha
    exact ⟨y, hy⟩

/-- One step of a run keeps the cache invariant. -/
theorem step {x y : KmemRun A} (h : CacheInv z k chain x.live x.kmem) (hsz : SlabSize z k)
    {a : KmemAct} (hfit : x.FreeFits a) (hs : KmemStep x a y) :
    ∃ chain', CacheInv z k chain' y.live y.kmem := by
  cases hs with
  | @allocSome stack a y he =>
    rcases h.kmemObjAlloc_spec hsz stack with ⟨w, hw, -⟩ | ⟨b, w, chain', hw, -, -, hinv, -⟩
    · rw [hw] at he
      cases he
    · rw [hw] at he
      cases he
      exact ⟨chain', hinv⟩
  | @allocNone stack y he =>
    rcases h.kmemObjAlloc_spec hsz stack with ⟨w, hw, -, -, hinv⟩ | ⟨b, w, chain', hw, -, -⟩
    · rw [hw] at he
      cases he
      exact ⟨chain, hinv⟩
    · rw [hw] at he
      cases he
  | @free a y ha he =>
    obtain ⟨w, hw, hinv⟩ := h.kmemObjFree_spec hsz ha
    rw [hw] at he
    cases he
    exact hinv (hfit ⟨a, rfl⟩)
  | other hcache hblock hpage hslab => exact ⟨chain, h.congr hcache hblock hpage hslab⟩

end CacheInv

theorem cacheInv_reachable {a : KmemArgs} (hfit : a.Fits) :
    ∀ x, ((kmemRuns A a).restrict KmemRun.FreeFits).Reachable x →
      SlabSize a.objSize.toNat a.pgOrder.toNat ∧
        ∃ chain, CacheInv a.objSize.toNat a.pgOrder.toNat chain x.live x.kmem := by
  intro x hx
  refine hx.invariant (P := fun x => SlabSize a.objSize.toNat a.pgOrder.toNat ∧
    ∃ chain, CacheInv a.objSize.toNat a.pgOrder.toNat chain x.live x.kmem)
    (fun x h0 => ?_) fun x b y _ h hs => ?_
  · obtain ⟨⟨x₀, stack, h0⟩, hlive⟩ := h0
    rw [hlive]
    exact kmemCacheInit_spec hfit h0
  · obtain ⟨hsz, chain, h⟩ := h
    exact ⟨hsz, h.step hsz hs.1 hs.2⟩

/-- Every state of a run represents the cache, when slabs and counters fit into an `int`:
no order above `18`, and at most `2 ^ 31 - 1` free objects. -/
theorem slab_cache (A : PageAllocator c) (a : KmemArgs) (hfit : a.Fits) :
    ∀ x, ((kmemRuns A a).restrict KmemRun.FreeFits).Reachable x → ∃ chain, CacheState chain x := by
  intro x hx
  obtain ⟨hsz, chain, h⟩ := cacheInv_reachable hfit x hx
  exact ⟨chain, h.cacheState hsz⟩

/-- A run on one page: an object of `2000` bytes is handed out. -/
theorem kmemRuns_one_page :
    let c := Layout.ofPages 1 1 (by decide) (by decide)
    let A := buddyAllocator c (FreeRange.all c) (by decide)
    let a : KmemArgs := ⟨4096, 2000, 0, 1, 1⟩
    ∃ x, ((kmemRuns A a).restrict KmemRun.FreeFits).Reachable x ∧ x.live = {2 ^ 31 + 48} := by
  intro c A a
  set x₀ : Kmem A := ⟨bootState c _ _, fun _ => .handed 0, fun _ => ⟨0, 0, 0, 0, 0, 0, 0⟩,
    ⟨0, 0, 0, 0, 0, 0, [], [], []⟩⟩ with hx₀
  have hrun : ((x₀.kmemCacheInit a fun _ _ => 0).bind fun r =>
      (r.2.kmemObjAlloc fun _ => 0).map fun r' => (r.1, r'.1)) =
      some (0, some (2 ^ 31 + 48)) := by
    rw [hx₀]
    decide
  obtain ⟨⟨e, y⟩, hinit, hr⟩ := Option.bind_eq_some_iff.1 hrun
  obtain ⟨⟨ret, w⟩, halloc, hv⟩ := Option.map_eq_some_iff.1 hr
  cases hv
  have hy : ((kmemRuns A a).restrict KmemRun.FreeFits).Reachable ⟨y, ∅⟩ :=
    .of_init ⟨⟨x₀, _, hinit⟩, rfl⟩
  have hstep : ((kmemRuns A a).restrict KmemRun.FreeFits).step ⟨y, ∅⟩
      (.alloc (some (2 ^ 31 + 48))) ⟨w, insert (2 ^ 31 + 48) ∅⟩ :=
    ⟨fun ⟨_, h⟩ => (nomatch h), .allocSome halloc⟩
  exact ⟨_, hy.step hstep, rfl⟩

/-- One page: the first of its objects of `2000` bytes is handed out at the end of the
`slab_t` and the array. -/
theorem slab_cache_one_page :
    let c := Layout.ofPages 1 1 (by decide) (by decide)
    let A := buddyAllocator c (FreeRange.all c) (by decide)
    let a : KmemArgs := ⟨4096, 2000, 0, 1, 1⟩
    ∃ x, ((kmemRuns A a).restrict KmemRun.FreeFits).Reachable x ∧ x.live = {2 ^ 31 + 48} ∧
      ∃ chain, CacheState chain x := by
  intro c A a
  obtain ⟨x, hx, hlive⟩ := kmemRuns_one_page
  exact ⟨x, hx, hlive, slab_cache A a ⟨by decide, by decide⟩ x hx⟩

/-- Above order `18` the size of a slab is not positive any more when it arrives in
`init_slab_xip`, so the first slab runs into the `ASSERT`. -/
theorem kmemObjAlloc_order {x : Kmem A} {k p : ℕ} {b : A.State} (hk : 19 ≤ k ∧ k ≤ 30)
    (hnum : x.cache.objNum = 0) (hlim : x.cache.pgOrhas < x.cache.pgOrlimit)
    (hord : x.cache.pgOrder = k) (halloc : A.alloc x.buddy k = (some p, b))
    (stack : ℕ → BitVec 8) : x.kmemObjAlloc stack = none := by
  have hsize : ¬ 0 < toInt32 (orderBytes k) := by
    obtain ⟨h1, h2⟩ := hk
    interval_cases k <;> decide
  have hslab : initSlab { Pageframe.handed k with pgtype := .slabAllocator } (c.pg2va p)
      x.cache.objSize x.cache.colorOffset stack = none :=
    (if_pos ⟨rfl, rfl⟩).trans (if_neg fun h => hsize h.2.1)
  have hgrow : x.grow stack = none := by
    unfold Kmem.grow
    rw [hord, halloc]
    dsimp only
    rw [Int.toNat_natCast, show setPgfmAslab (.handed k) =
      some { Pageframe.handed k with pgtype := .slabAllocator } from if_pos ⟨rfl, rfl⟩]
    dsimp only
    rw [hslab]
  unfold Kmem.kmemObjAlloc
  rw [if_pos hnum, if_neg (not_le.2 hlim), hgrow]

/-- With twenty orders a cache of slabs of `2 ^ 31` bytes is set up, and the first
`kmem_obj_alloc` runs into an `ASSERT` although there is a block. -/
theorem kmemRuns_twenty :
    let c := Layout.ofPages 20 (2 ^ 19) (by decide) (by decide)
    let A := buddyAllocator c (FreeRange.all c) (by decide)
    ∃ x, (kmemRuns A ⟨4096, 1, 19, 1, 0⟩).Reachable x ∧
      (∀ stack, x.kmem.kmemObjAlloc stack = none) ∧
      x.kmem.cache = ⟨0, 1, 19, 1, 0, 4096, [], [], []⟩ ∧
      (A.alloc x.kmem.buddy 19).1 ≠ none := by
  intro c A
  -- boot made one block of all pages
  obtain ⟨b₀, p, b, halloc⟩ : ∃ (b₀ : A.State) (p : ℕ) (b : A.State),
      A.alloc b₀ (19 : ℕ) = (some p, b) := by
    exact ⟨_, bootState_succeeds (j := 19) (by decide) (by decide) (by decide) (by decide)
      (by decide)⟩
  set x₀ : Kmem A := ⟨b₀, fun _ => .handed 0, fun _ => ⟨0, 0, 0, 0, 0, 0, 0⟩,
    ⟨0, 0, 0, 0, 0, 0, [], [], []⟩⟩ with hx₀
  set x : Kmem A := { x₀ with cache :=
        { objNum := 0, objSize := 1, pgOrder := 19, pgOrlimit := 1, pgOrhas := 0
          colorOffset := 4096, free := [], full := [], partialSlabs := [] } } with hx
  have hinit : x₀.kmemCacheInit ⟨4096, 1, 19, 1, 0⟩ (fun _ _ => 0) = some (0, x) := by
    unfold Kmem.kmemCacheInit
    rw [if_neg (by decide)]
    rfl
  have hnone := kmemObjAlloc_order (x := x) ⟨le_rfl, by decide⟩ rfl Int.one_pos rfl halloc
  refine ⟨⟨x, ∅⟩, .of_init ⟨⟨x₀, _, hinit⟩, rfl⟩, hnone, rfl, fun hno => ?_⟩
  have halloc' : A.alloc b₀ 19 = (some p, b) := halloc
  change (A.alloc b₀ 19).1 = none at hno
  rw [halloc'] at hno
  cases hno

/-- So this cache is not as a cache should be. -/
theorem not_slab_cache_twenty :
    let c := Layout.ofPages 20 (2 ^ 19) (by decide) (by decide)
    let A := buddyAllocator c (FreeRange.all c) (by decide)
    ∃ x, (kmemRuns A ⟨4096, 1, 19, 1, 0⟩).Reachable x ∧
      (∀ stack, x.kmem.kmemObjAlloc stack = none) ∧ ¬ ∃ chain, CacheState chain x := by
  intro c A
  obtain ⟨x, hx, hnone, -⟩ := kmemRuns_twenty
  refine ⟨x, hx, hnone, fun ⟨chain, h⟩ => ?_⟩
  obtain ⟨ret, y, hy, -⟩ := h.alloc fun _ => 0
  rw [hnone] at hy
  cases hy

end AcoOs
