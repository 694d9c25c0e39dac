/-
A machine whose object caches are slabs.

`vm_module_init` sets up `vma_cache` and `vma_area_cache` before it makes `kern_vma`
(`Caches.kmemCacheInit`).  With enough pages both calls succeed, and a cache with free objects
hands out one of them (`Caches.Ok.kmemObjAlloc_left`), so the machine of `VmMachine` boots over
slabs as well (`slabMachine_boots`).
-/
import AcoOs.SlabCalls
import AcoOs.VmCaches
import AcoOs.VmMachine

namespace AcoOs

/-! ### Setting up a cache -/

section Loop

variable {c : Layout} {A : PageAllocator c} {z k : ℕ} {x y : Kmem A}

/-- The loop of `kmem_cache_init` changes nothing but the slabs of its cache. -/
theorem initLoop_own {a : KmemArgs} (ha : a.Sized z k) (hx : x.cache = a.cache)
    (stack : ℕ → ℕ → BitVec 8) {i : ℕ} (hi : i ≤ a.pgorLimit)
    (h : x.initLoop stack i = some (true, y)) : x.Own y := by
  induction i generalizing y with
  | zero =>
    cases h
    exact .refl x
  | succ i ih =>
    unfold Kmem.initLoop at h
    rcases initLoop_loaded ha x hx stack i (by omega) with ⟨hn, -⟩ | ⟨n, -, w, u, hu, -⟩ |
      ⟨w, hw, hload⟩
    · rw [hn] at h
      cases h
    · rw [hu] at h
      cases h
    · rw [hw] at h
      obtain ⟨chain, hs⟩ := hload.slabs
      have hroom : w.cache.pgOrhas < w.cache.pgOrlimit := by
        rw [hload.pgOrhas, hload.pgOrlimit, hx]
        show (i : ℤ) < a.pgorLimit
        omega
      exact (ih (by omega) hw).trans (hs.grow_own ha.pos ha.lt hroom h)

/-- All objects of new slabs are free. -/
theorem Loaded.objNum {n : ℕ} (h : Loaded z k x y n) :
    y.cache.objNum = int32 (n * slabObjs (orderBytes k) z : ℕ) := by
  obtain ⟨chain, hs⟩ := h.slabs
  have hlen : ∀ p ∈ y.cache.all, (chain p).length = slabObjs (orderBytes k) z := fun p hp =>
    (hs.free_iff p hp).1 (h.all_eq ▸ hp)
  rw [hs.objNum]
  unfold KmemCache.freeCount
  rw [List.map_congr_left hlen, List.map_const', List.sum_replicate, h.all_eq, h.length,
    smul_eq_mul]

/-- The pages of the slabs were free. -/
theorem Loaded.ncard {L : VmLayout} {A : PageAllocator L.toLayout} {x y : Kmem A} {n : ℕ}
    (h : Loaded z 0 x y n) :
    (A.freePages x.buddy).ncard ≤ (A.freePages y.buddy).ncard + n := by
  have hset : A.freePages x.buddy = A.freePages y.buddy ∪ (y.cache.free.toFinset : Set ℕ) := by
    rw [← h.freePages]
    congr 1
    ext q
    simp [Memory.pagesOf_zero]
  rw [hset, ← h.length]
  refine (Set.ncard_union_le _ _).trans (Nat.add_le_add_left ?_ _)
  rw [Set.ncard_coe_finset]
  exact List.toFinset_card_le _

end Loop

/-! ### The two caches -/

namespace VmCache

/-- The slabs that `vm_module_init` asks for. -/
def initSlabs : VmCache → ℕ
  | vma => 3
  | vmaArea => 30

/-- The arguments of `kmem_cache_init` for the cache at an address. -/
def kmemArgs (cacheAt : VmCache → ℕ) (k : VmCache) : KmemArgs :=
  ⟨cacheAt k, k.objSize, 0, 3000, k.initSlabs⟩

/-- The objects in these slabs. -/
def initObjs (k : VmCache) : ℕ := k.initSlabs * slabObjs (orderBytes 0) k.objSize

theorem kmemArgs_sized (cacheAt : VmCache → ℕ) (k : VmCache) :
    (k.kmemArgs cacheAt).Sized k.objSize 0 :=
  ⟨rfl, rfl, k.objSize_fits.pos, k.objSize_fits.lt⟩

theorem kmemArgs_accepted (c : Layout) {cacheAt : VmCache → ℕ} {k : VmCache}
    (hk : cacheAt k ≠ 0) (hc : 0 < c.maxOrder) : (k.kmemArgs cacheAt).Accepted c := by
  have hsize : 0 < (k.objSize : ℤ) ∧ (k.objSize : ℤ) < orderBytes 0 :=
    ⟨Int.natCast_pos.2 k.objSize_fits.pos, Int.ofNat_lt.2 k.objSize_fits.lt⟩
  have hslabs : (k.initSlabs : ℤ) ≤ 3000 := by cases k <;> decide
  rintro (h | h | h | h | h | h | h)
  · exact hk h
  · exact absurd h (not_le.2 hsize.1)
  · exact h ⟨le_rfl, Int.natCast_pos.2 hc⟩
  · exact absurd h (not_le.2 (show (0 : ℤ) < 3000 by decide))
  · exact absurd h (not_lt.2 (Int.natCast_nonneg _))
  · exact absurd h (not_lt.2 hslabs)
  · exact absurd h (not_le.2 hsize.2)

end VmCache

namespace Caches

variable {c : Layout} {A : PageAllocator c}

/-- Two caches without slabs. -/
def start (b : A.State) (cacheAt : VmCache → ℕ) : Caches A where
  buddy := b
  pages _ := .handed 0
  slabs _ := ⟨0, 0, 0, 0, 0, fun _ => 0, 0⟩
  cache k := (k.kmemArgs cacheAt).cache
  live _ := ∅

theorem start_ok (b : A.State) (cacheAt : VmCache → ℕ) : (start b cacheAt).Ok where
  slabs k := ⟨fun _ => [], SlabsInv.empty (k.kmemArgs_sized cacheAt) (show (0 : ℤ) ≤ 3000 by decide)
    ((start b cacheAt).kmem k)⟩
  apart _ _ _ _ hp := (nomatch hp)

/-- `kmem_cache_init` of one of the two caches. -/
def kmemCacheInit (x : Caches A) (cacheAt : VmCache → ℕ) (k : VmCache) (stack : ℕ → ℕ → BitVec 8) :
    Option (ℤ × Caches A) :=
  ((x.kmem k).kmemCacheInit (k.kmemArgs cacheAt) stack).map fun r => (r.1, x.withKmem k r.2 ∅)

variable {x : Caches A} {k : VmCache}

/-- A cache with free objects hands out one of them, and takes no page. -/
theorem Ok.kmemObjAlloc_left (h : x.Ok) (hnum : (x.cache k).objNum ≠ 0) (stack : ℕ → BitVec 8) :
    ∃ a y, x.kmemObjAlloc k stack = (some a, x.withKmem k y (insert a (x.live k))) ∧ a ≠ 0 ∧
      y.buddy = x.buddy ∧ y.cache.objNum = int32 ((x.cache k).objNum - 1) := by
  rcases h.kmemObjAlloc_cases (k := k) stack with ⟨y, -, -, -, h0⟩ | ⟨a, y, he, ha, -, -, -, htake⟩
  · exact absurd h0 hnum
  · exact ⟨a, y, he, ha, (Kmem.take_same (htake hnum)).1, Kmem.take_objNum (htake hnum)⟩

end Caches

/-! ### The environment with these caches -/

section Env

variable {L : VmLayout} {A : PageAllocator L.toLayout} {stack : ℕ → BitVec 8}

/-- `kmem_cache_init` succeeds where there are enough pages. -/
theorem Caches.Ok.kmemCacheInit_succeeds {x : Caches A} (h : x.Ok) (hA : A.Ample)
    {cacheAt : VmCache → ℕ} {k : VmCache} (hat : cacheAt k ≠ 0)
    (hcache : x.cache k = (k.kmemArgs cacheAt).cache) (stack : ℕ → ℕ → BitVec 8)
    (hfree : k.initSlabs ≤ (A.freePages x.buddy).ncard) :
    ∃ y, x.kmemCacheInit cacheAt k stack = some (0, x.withKmem k y ∅) ∧
      (x.withKmem k y ∅).Ok ∧ y.cache.objNum = int32 k.initObjs ∧
      (A.freePages x.buddy).ncard ≤ (A.freePages y.buddy).ncard + k.initSlabs := by
  have ha := k.kmemArgs_sized cacheAt
  have hslabs : ((k.kmemArgs cacheAt).initPgorAlloc.toNat : ℤ) ≤ (k.kmemArgs cacheAt).pgorLimit :=
    (VmCache.kmemArgs_accepted L.toLayout hat L.maxOrder_pos).init_le
  have hx : { x.kmem k with cache := (k.kmemArgs cacheAt).cache } = x.kmem k := by
    unfold Caches.kmem
    rw [hcache]
  have hinit := @kmemCacheInit_eq L.toLayout A (x.kmem k) (k.kmemArgs cacheAt) stack
    (VmCache.kmemArgs_accepted L.toLayout hat L.maxOrder_pos)
  rw [hx] at hinit
  rcases initLoop_loaded ha (x.kmem k) hcache stack k.initSlabs hslabs with ⟨-, hk⟩ |
    ⟨n, hn, y, w, -, hload, -, hwhy⟩ | ⟨y, hy, hload⟩
  · exact absurd hk (by decide)
  · -- with `n` slabs there is a page for one more, and it has room for objects
    rcases hwhy with hnone | hobjs
    · have hle : (A.freePages x.buddy).ncard ≤ (A.freePages y.buddy).ncard + n := hload.ncard
      exact absurd hnone (hA y.buddy (Set.nonempty_of_ncard_ne_zero (by omega)))
    · exact absurd hobjs (by cases k <;> decide)
  · have hrun : (x.kmem k).kmemCacheInit (k.kmemArgs cacheAt) stack = some (0, y) := by
      rw [hinit, show (k.kmemArgs cacheAt).initPgorAlloc.toNat = k.initSlabs from rfl, hy]
    refine ⟨y, ?_, h.withKmem (initLoop_own ha hcache stack hslabs hy) hload.slabs, hload.objNum,
      hload.ncard⟩
    unfold Caches.kmemCacheInit
    rw [hrun]
    rfl

/-- The first steps of `vm_module_init`: both caches and the object `kern_vma`. -/
theorem Caches.start_succeeds (hA : A.Ample) (b : A.State) {cacheAt : VmCache → ℕ}
    (hat : ∀ k, cacheAt k ≠ 0) (stack : VmCache → ℕ → ℕ → BitVec 8) (stack' : ℕ → BitVec 8)
    (hfree : 33 ≤ (A.freePages b).ncard) : ∃ x y z a,
    (start b cacheAt).kmemCacheInit cacheAt .vma (stack .vma) = some (0, x) ∧
    x.kmemCacheInit cacheAt .vmaArea (stack .vmaArea) = some (0, y) ∧
    y.kmemObjAlloc .vma stack' = (some a, z) ∧ a ≠ 0 ∧ z.Ok ∧
    z.live .vma = {a} ∧ z.live .vmaArea = ∅ ∧
    (z.cache .vmaArea).objNum = int32 VmCache.vmaArea.initObjs ∧
    (A.freePages b).ncard ≤ (A.freePages z.buddy).ncard + 33 := by
  have hne : VmCache.vma ≠ .vmaArea := by decide
  obtain ⟨y₁, h₁, hok₁, hnum₁, hn₁⟩ := (start_ok b cacheAt).kmemCacheInit_succeeds hA (hat .vma) rfl
    (stack .vma) (show 3 ≤ (A.freePages b).ncard by omega)
  change (A.freePages b).ncard ≤ (A.freePages y₁.buddy).ncard + 3 at hn₁
  set x := (start b cacheAt).withKmem .vma y₁ ∅
  obtain ⟨y₂, h₂, hok₂, hnum₂, hn₂⟩ := hok₁.kmemCacheInit_succeeds hA (hat .vmaArea)
    (withKmem_cache_of_ne hne.symm ∅) (stack .vmaArea)
    (show 30 ≤ (A.freePages y₁.buddy).ncard by omega)
  change (A.freePages y₁.buddy).ncard ≤ (A.freePages y₂.buddy).ncard + 30 at hn₂
  set y := x.withKmem .vmaArea y₂ ∅
  -- the second call does not change the first cache
  have hcache : y.cache .vma = y₁.cache :=
    (withKmem_cache_of_ne hne ∅).trans (withKmem_cache ∅)
  have hlive : y.live .vma = ∅ := (withKmem_live_of_ne hne ∅).trans (withKmem_live ∅)
  -- so there is an object for `kern_vma`, and no page is needed for it
  obtain ⟨a, w, h₃, ha, hbuddy, -⟩ := hok₂.kmemObjAlloc_left (k := .vma)
    (by rw [hcache, hnum₁]; decide) stack'
  have hok₃ := hok₂.kmemObjAlloc (k := .vma) stack'
  rw [h₃] at hok₃
  refine ⟨x, y, _, a, h₁, h₂, h₃, ha, hok₃, ?_, ?_, ?_, ?_⟩
  · rw [withKmem_live, hlive]
    rfl
  · rw [withKmem_live_of_ne hne.symm]
    exact withKmem_live ∅
  · rw [withKmem_cache_of_ne hne.symm, ← hnum₂]
    exact congrArg KmemCache.objNum (withKmem_cache ∅)
  · show _ ≤ (A.freePages w.buddy).ncard + 33
    rw [hbuddy]
    show _ ≤ (A.freePages y₂.buddy).ncard + 33
    omega

theorem Caches.allocator_ample (hA : A.Ample) : (Caches.allocator A).Ample := fun s hs =>
  hA s.1.buddy hs

/-- An object from a cache with free ones. -/
theorem VmEnv.ofCaches_objAlloc {s : (VmEnv.ofCaches A stack).State} {k : VmCache} {n : ℕ}
    (hnum : (s.1.cache k).objNum = n + 1) (hn : n < 2 ^ 31) :
    ((VmEnv.ofCaches A stack).objAlloc s k).1 ≠ none ∧
      (((VmEnv.ofCaches A stack).objAlloc s k).2.1.cache k).objNum = n := by
  obtain ⟨a, y, he, -, -, hy⟩ := s.2.kmemObjAlloc_left (k := k) (by omega) stack
  constructor
  · show (s.1.kmemObjAlloc k stack).1 ≠ none
    rw [he]
    exact Option.some_ne_none a
  · show ((s.1.kmemObjAlloc k stack).2.cache k).objNum = n
    rw [he]
    dsimp only
    rw [Caches.withKmem_cache, hy, hnum, add_sub_cancel_right]
    exact int32_of_lt (Int.natCast_nonneg n) (by exact_mod_cast hn)

/-- Blocks of pages do not change the caches. -/
theorem VmEnv.ofCaches_cache_evolves {s t : (VmEnv.ofCaches A stack).State}
    (h : (VmEnv.ofCaches A stack).Evolves s t) : t.1.cache = s.1.cache := by
  refine h.keep (f := fun s : (VmEnv.ofCaches A stack).State => s.1.cache) (fun _ _ => rfl)
    fun s p s' hs => ?_
  obtain ⟨y, -, he, rfl⟩ := Option.pmap_eq_some_iff.1 hs
  unfold Caches.bkpFree at he
  split_ifs at he
  obtain ⟨b, -, rfl⟩ := Option.map_eq_some_iff.1 he
  rfl

end Env

/-! ### The machine -/

/-- The machine of 16 GiB, with the objects from slabs. -/
def slabMachine : VmEnv vmMachineLayout := .ofCaches vmMachinePages fun _ => 0

/-- Where its caches lie. -/
def slabMachineCache : VmCache → ℕ
  | .vma => 0x1000
  | .vmaArea => 0x2000

theorem slabMachineCache_ne_zero (k : VmCache) : slabMachineCache k ≠ 0 := by
  cases k <;> decide

/-- What the boot code finds: the object `kern_vma`, and 30 slabs for areas. -/
theorem slabMachine_reset : ∃ x : VmState slabMachine, x.live .vma = {x.kernVma} ∧
    x.live .vmaArea = ∅ ∧ x.kernVma ≠ 0 ∧ (∀ v, x.vmas v = .zero) ∧
    (∀ p, (x.mem.pages p).pgtype ≠ .vmaArea) ∧
    (x.mem.buddy.1.cache .vmaArea).objNum = 1200 ∧ 2 ^ 20 < x.mem.freePages.ncard := by
  obtain ⟨-, -, z, a, -, -, -, ha, hok, hvma, harea, hnum, hn⟩ := Caches.start_succeeds
    vmMachinePages_ample vmMachineBuddy slabMachineCache_ne_zero
    (fun _ _ _ => 0) (fun _ => 0) (by rw [vmMachineBuddy_ncard]; norm_num)
  rw [vmMachineBuddy_ncard] at hn
  refine ⟨⟨⟨⟨z, hok⟩, fun _ => .handed 0, fun _ _ => 0⟩, fun _ => .zero,
    fun _ => kernelText vmMachineLayout, a⟩, hvma, harea, ha, fun _ => rfl, fun _ h => (nomatch h),
    ?_, ?_⟩
  · rw [show (1200 : ℤ) = int32 VmCache.vmaArea.initObjs by decide]
    exact hnum
  · show 2 ^ 20 < (vmMachinePages.freePages z.buddy).ncard
    omega

/-- The machine boots, and there are objects for more areas. -/
theorem slabMachine_boots : ∃ (s : VmState slabMachine) (text data : ℕ),
    (vmRuns slabMachine).init s ∧ s.Booted text data ∧ (s.objAlloc .vmaArea).1 ≠ none := by
  obtain ⟨x, hvma, harea, hk, hvmas, ht, hnum, hn⟩ := slabMachine_reset
  have hcache : ∀ b, slabMachine.Evolves x.mem.buddy b → (b.1.cache .vmaArea).objNum = 1200 := by
    -- the boot code takes pages only
    intro b hb
    rw [VmEnv.ofCaches_cache_evolves hb, hnum]
  -- each area takes one of the objects
  have hobj : ∀ b, slabMachine.Evolves x.mem.buddy b → slabMachine.TwoAreas b ∧
      ((slabMachine.twoAreas b).1.cache .vmaArea).objNum = 1198 := by
    intro b hb
    obtain ⟨h₁, hn₁⟩ := VmEnv.ofCaches_objAlloc (n := 1199) (hcache b hb) (by norm_num)
    obtain ⟨h₂, hn₂⟩ := VmEnv.ofCaches_objAlloc (n := 1198) hn₁ (by norm_num)
    exact ⟨⟨h₁, h₂⟩, hn₂⟩
  obtain ⟨s, text, data, b, hs, hb, hev, hbuddy, -⟩ := VmState.boots
    (Caches.allocator_ample vmMachinePages_ample)
    (fun b hb => (hobj b hb).1) hvma harea hk hvmas ht hn
  refine ⟨s, text, data, hs, hb, ?_⟩
  have hleft : (s.mem.buddy.1.cache .vmaArea).objNum = 1198 := by
    rw [hbuddy]
    exact (hobj b hev).2
  exact (VmEnv.ofCaches_objAlloc (n := 1197) hleft (by norm_num)).1

end AcoOs
