/-
The object caches of the address spaces.

`VmEnv` says what the calls of `mm/vm.h` take from elsewhere.  Here their objects come from
`kmem_obj_alloc`: `vma_cache` and `vma_area_cache` are two `Kmem`s over one page allocator, and the
blocks of their slabs are hidden from the other clients of `bkp_alloc`.

* **`Caches.Ok`** — both caches are right, and no slab is in both; every call keeps it;
* **`VmEnv.ofCaches`** — the environment they make, so that a theorem about every `VmEnv` is one
  about address spaces over slabs;
* **`LockedEnv.ofCaches`** — the same with the locks that the calls take.
-/
import AcoOs.AvlBalance
import AcoOs.LockSections
import AcoOs.SlabClean

namespace AcoOs

/-! ### What a call on a cache changes -/

namespace Kmem

variable {c : Layout} {A : PageAllocator c} {x y w : Kmem A}

/-- A call has changed nothing but the slabs of the cache, and has taken pages for new ones. -/
structure Own (x y : Kmem A) : Prop where
  free : A.freePages y.buddy ⊆ A.freePages x.buddy
  kept : ∀ q ∈ x.cache.all, q ∈ y.cache.all
  all : ∀ q ∈ y.cache.all, q ∈ x.cache.all ∨ q ∈ A.freePages x.buddy
  blocks : ∀ q, q ∉ y.cache.all → A.blocks y.buddy q = A.blocks x.buddy q
  other : ∀ q, q ∉ x.cache.all → q ∉ A.freePages x.buddy →
    A.blocks y.buddy q = A.blocks x.buddy q ∧ y.pages q = x.pages q ∧ y.slabs q = x.slabs q

theorem Own.refl (x : Kmem A) : x.Own x :=
  ⟨subset_rfl, fun _ hq => hq, fun _ hq => .inl hq, fun _ _ => rfl, fun _ _ _ => ⟨rfl, rfl, rfl⟩⟩

theorem Own.trans (h : x.Own y) (h' : y.Own w) : x.Own w where
  free := h'.free.trans h.free
  kept q hq := h'.kept q (h.kept q hq)
  all q hq := (h'.all q hq).elim (h.all q) fun hf => .inr (h.free hf)
  blocks q hq := (h'.blocks q hq).trans (h.blocks q fun hy => hq (h'.kept q hy))
  other q hq hf := by
    have hy : q ∉ y.cache.all := fun hy => (h.all q hy).elim hq hf
    obtain ⟨h1, h2, h3⟩ := h.other q hq hf
    obtain ⟨h1', h2', h3'⟩ := h'.other q hy fun hy => hf (h.free hy)
    exact ⟨h1'.trans h1, h2'.trans h2, h3'.trans h3⟩

/-- Only one slab of the cache was written. -/
theorem Own.of_slab {p : ℕ} {s : Slab} (hp : p ∈ x.cache.all) (hbuddy : y.buddy = x.buddy)
    (hpages : y.pages = x.pages) (hslabs : y.slabs = Function.update x.slabs p s)
    (hall : ∀ q, q ∈ y.cache.all ↔ q ∈ x.cache.all) : x.Own y where
  free := by rw [hbuddy]
  kept q hq := (hall q).2 hq
  all q hq := .inl ((hall q).1 hq)
  blocks q _ := by rw [hbuddy]
  other q hq _ := by
    have hqp : q ≠ p := fun he => hq (he ▸ hp)
    rw [hbuddy, hpages, hslabs, Function.update_of_ne hqp]
    exact ⟨rfl, rfl, rfl⟩

theorem take_same {ret : Option ℕ} (h : x.take = some (ret, y)) :
    y.buddy = x.buddy ∧ y.pages = x.pages := by
  unfold take at h
  split at h
  · split at h
    · cases h
      exact ⟨rfl, rfl⟩
    · cases h
  · split at h
    · cases h
    · split at h
      · cases h
        exact ⟨rfl, rfl⟩
      · cases h

theorem take_objNum {ret : Option ℕ} (h : x.take = some (ret, y)) :
    y.cache.objNum = int32 (x.cache.objNum - 1) := by
  unfold take at h
  split at h
  · split at h
    · cases h
      dsimp only
      split_ifs <;> rfl
    · cases h
  · split at h
    · cases h
    · split at h
      · cases h
        dsimp only
        split_ifs <;> rfl
      · cases h

theorem take_own {ret : Option ℕ} (h : x.take = some (ret, y)) : x.Own y := by
  obtain ⟨p, hp, o, s, -, hslabs, hall, -⟩ := take_cases h
  obtain ⟨hbuddy, hpages⟩ := take_same h
  exact .of_slab hp hbuddy hpages hslabs hall

theorem kmemObjFree_same {a : ℕ} (h : x.kmemObjFree a = some y) :
    y.buddy = x.buddy ∧ y.pages = x.pages := by
  unfold kmemObjFree at h
  split_ifs at h
  · cases h
    exact ⟨rfl, rfl⟩
  · split at h
    · cases h
    · split at h <;> cases h
      exact ⟨rfl, rfl⟩
    · split at h
      · cases h
      · cases h
        exact ⟨rfl, rfl⟩
      · split at h <;> cases h
        exact ⟨rfl, rfl⟩

theorem kmemObjFree_own {a : ℕ} (h : x.kmemObjFree a = some y) : x.Own y := by
  obtain ⟨hbuddy, hpages⟩ := kmemObjFree_same h
  rcases kmemObjFree_cases h with ⟨rfl, -⟩ | ⟨p, hp, s, -, hslabs, hall, -⟩
  · exact .refl y
  · exact .of_slab hp hbuddy hpages hslabs hall

end Kmem

namespace SlabsInv

variable {c : Layout} {A : PageAllocator c} {z k : ℕ} {chain : ℕ → List ℕ} {live : Finset ℕ}
  {x y : Kmem A}

theorem refused_own (h : SlabRefused k x y) : x.Own y where
  free := h.freePages.le
  kept q hq := by rwa [h.cache]
  all q hq := .inl (by rwa [h.cache] at hq)
  blocks q _ := by rw [h.blocks]
  other q _ hf := ⟨by rw [h.blocks], (h.pages q).resolve_right fun hq => hf hq.1, by rw [h.slabs]⟩

/-- A new slab takes pages that were free. -/
theorem grow_own (h : SlabsInv z k chain live x) (hz : 0 < z) (hlt : z < orderBytes k)
    (hlim : x.cache.pgOrhas < x.cache.pgOrlimit) {stack : ℕ → BitVec 8} {more : Bool}
    (hg : x.grow stack = some (more, y)) : x.Own y := by
  cases more with
  | false => exact refused_own (h.grow_false hz hlt hlim hg)
  | true =>
    obtain ⟨chain', p, -, hadd⟩ := h.grow_true hz hlt hlim hg
    obtain ⟨-, hsub, hfree, hblocks⟩ := A.alloc_some hadd.alloc
    rw [Int.toNat_natCast] at hsub hblocks
    have hpf := hsub (self_mem_pagesOf p k)
    rcases Kmem.grow_cases hg with ⟨hf, -⟩ | ⟨-, q, t, s, halloc, hslabs, hperm, -⟩
    · cases hf
    rw [h.pgOrder, hadd.alloc] at halloc
    cases halloc
    refine ⟨?_, fun q hq => ?_, fun q hq => ?_, fun q hq => ?_, fun q hq hf => ?_⟩
    · rw [hfree]
      exact Set.sdiff_subset
    · exact hperm.mem_iff.2 (List.mem_cons_of_mem p hq)
    · rcases List.mem_cons.1 (hperm.mem_iff.1 hq) with rfl | hqx
      · exact .inr hpf
      · exact .inl hqx
    · rw [hblocks, Function.update_of_ne]
      rintro rfl
      exact hq (hperm.mem_iff.2 List.mem_cons_self)
    · have hqp : q ≠ p := fun hqp => hf (hqp ▸ hpf)
      rw [hblocks, hslabs, Function.update_of_ne hqp, Function.update_of_ne hqp]
      exact ⟨rfl, hadd.pages q hqp, rfl⟩

/-- `kmem_obj_alloc` may take the pages of one more slab. -/
theorem kmemObjAlloc_own (h : SlabsInv z k chain live x) (hz : 0 < z) (hlt : z < orderBytes k)
    {stack : ℕ → BitVec 8} {ret : Option ℕ} (he : x.kmemObjAlloc stack = some (ret, y)) :
    x.Own y := by
  unfold Kmem.kmemObjAlloc at he
  by_cases hnum : x.cache.objNum = 0
  · rw [if_pos hnum] at he
    by_cases hlim : x.cache.pgOrlimit ≤ x.cache.pgOrhas
    · rw [if_pos hlim] at he
      cases he
      exact .refl x
    · rw [if_neg hlim] at he
      rcases hg : x.grow stack with _ | ⟨_ | _, w⟩
      · rw [hg] at he
        cases he
      · rw [hg] at he
        cases he
        exact h.grow_own hz hlt (not_le.1 hlim) hg
      · rw [hg] at he
        exact (h.grow_own hz hlt (not_le.1 hlim) hg).trans (Kmem.take_own he)
  · rw [if_neg hnum] at he
    exact Kmem.take_own he

end SlabsInv

/-! ### The two caches -/

namespace VmCache

/-- `sizeof(vma_t)` and `sizeof(vma_area_t)`. -/
def objSize : VmCache → ℕ
  | vma => 56
  | vmaArea => 96

theorem objSize_fits (k : VmCache) : SlabSize k.objSize 0 := by
  cases k <;> exact ⟨by decide, by decide, by decide⟩

end VmCache

variable {c : Layout}

/-- `vma_cache` and `vma_area_cache` with the slabs of both, and the objects that are handed
out. -/
structure Caches (A : PageAllocator c) where
  buddy : A.State
  pages : ℕ → Pageframe
  slabs : ℕ → Slab
  cache : VmCache → KmemCache
  live : VmCache → Finset ℕ

namespace Caches

variable {A : PageAllocator c}

/-- What a call on one of the caches works on. -/
def kmem (x : Caches A) (k : VmCache) : Kmem A := ⟨x.buddy, x.pages, x.slabs, x.cache k⟩

/-- What it leaves. -/
def withKmem (x : Caches A) (k : VmCache) (y : Kmem A) (live : Finset ℕ) : Caches A :=
  ⟨y.buddy, y.pages, y.slabs, Function.update x.cache k y.cache, Function.update x.live k live⟩

/-- A page is the first one of a slab. -/
def IsSlab (x : Caches A) (p : ℕ) : Prop := p ∈ (x.cache .vma).all ∨ p ∈ (x.cache .vmaArea).all

instance decidableIsSlab (x : Caches A) (p : ℕ) : Decidable (x.IsSlab p) :=
  inferInstanceAs (Decidable (_ ∨ _))

/-- Both caches are right, and they share no slab. -/
structure Ok (x : Caches A) : Prop where
  slabs : ∀ k, ∃ chain, SlabsInv k.objSize 0 chain (x.live k) (x.kmem k)
  apart : ∀ k k', k ≠ k' → ∀ p ∈ (x.cache k).all, p ∉ (x.cache k').all

variable {x : Caches A} {k : VmCache} {y : Kmem A} {p : ℕ}

@[simp] theorem withKmem_cache (live : Finset ℕ) : (x.withKmem k y live).cache k = y.cache :=
  Function.update_self ..

@[simp] theorem withKmem_live (live : Finset ℕ) : (x.withKmem k y live).live k = live :=
  Function.update_self ..

theorem withKmem_cache_of_ne {k' : VmCache} (hk : k' ≠ k) (live : Finset ℕ) :
    (x.withKmem k y live).cache k' = x.cache k' :=
  Function.update_of_ne hk ..

theorem withKmem_live_of_ne {k' : VmCache} (hk : k' ≠ k) (live : Finset ℕ) :
    (x.withKmem k y live).live k' = x.live k' :=
  Function.update_of_ne hk ..

theorem isSlab_iff : x.IsSlab p ↔ ∃ k, p ∈ (x.cache k).all := by
  constructor
  · rintro (h | h)
    · exact ⟨.vma, h⟩
    · exact ⟨.vmaArea, h⟩
  · rintro ⟨_ | _, h⟩
    · exact .inl h
    · exact .inr h

theorem Ok.block (h : x.Ok) (hp : p ∈ (x.cache k).all) : A.blocks x.buddy p = some 0 := by
  obtain ⟨chain, hs⟩ := h.slabs k
  exact hs.block p hp

theorem Ok.notMem_free (h : x.Ok) (hp : p ∈ (x.cache k).all) : p ∉ A.freePages x.buddy := by
  intro hf
  have hn := A.blocks_of_free hf
  rw [h.block hp] at hn
  cases hn

/-- A call on one cache leaves the other one right. -/
theorem Ok.withKmem (h : x.Ok) (hown : (x.kmem k).Own y) {live : Finset ℕ}
    (hy : ∃ chain, SlabsInv k.objSize 0 chain live y) : (x.withKmem k y live).Ok := by
  constructor
  · intro k'
    by_cases hk : k' = k
    · subst hk
      obtain ⟨chain, hs⟩ := hy
      refine ⟨chain, ?_⟩
      unfold Caches.kmem
      rw [withKmem_cache, withKmem_live]
      exact hs
    · obtain ⟨chain, hs⟩ := h.slabs k'
      have hsame : ∀ q ∈ (x.cache k').all, A.blocks y.buddy q = A.blocks x.buddy q ∧
          y.pages q = x.pages q ∧ y.slabs q = x.slabs q := fun q hq =>
        hown.other q (h.apart k' k hk q hq) (h.notMem_free hq)
      refine ⟨chain, ?_⟩
      rw [withKmem_live_of_ne hk]
      exact hs.congr (withKmem_cache_of_ne hk live) (fun q hq => (hsame q hq).1)
        (fun q hq => (hsame q hq).2.1) fun q hq => (hsame q hq).2.2
  · -- a slab that is new was free
    have hnew : ∀ k', k' ≠ k → ∀ q ∈ y.cache.all, q ∉ (x.cache k').all := by
      intro k' hk q hq hq'
      rcases hown.all q hq with hx | hf
      · exact h.apart k' k hk q hq' hx
      · exact h.notMem_free hq' hf
    intro k₁ k₂ hne q hq₁ hq₂
    -- one of the two, or neither, is the cache of the call
    by_cases h₁ : k₁ = k
    · subst h₁
      rw [withKmem_cache] at hq₁
      rw [withKmem_cache_of_ne hne.symm] at hq₂
      exact hnew k₂ hne.symm q hq₁ hq₂
    · rw [withKmem_cache_of_ne h₁] at hq₁
      by_cases h₂ : k₂ = k
      · subst h₂
        rw [withKmem_cache] at hq₂
        exact hnew k₁ h₁ q hq₂ hq₁
      · rw [withKmem_cache_of_ne h₂] at hq₂
        exact h.apart k₁ k₂ hne q hq₁ hq₂

/-! ### What the calls do -/

/-- The pages, without the blocks of the slabs. -/
def pageSet (x : Caches A) : PageSet :=
  ⟨A.freePages x.buddy, fun p => if x.IsSlab p then none else A.blocks x.buddy p⟩

/-- `bkp_alloc`. -/
def bkpAlloc (x : Caches A) (order : ℤ) : Option ℕ × Caches A :=
  ((A.alloc x.buddy order).1, { x with buddy := (A.alloc x.buddy order).2 })

/-- `bkp_free`, which asserts that the block is not a slab. -/
def bkpFree (x : Caches A) (p : ℕ) : Option (Caches A) :=
  if x.IsSlab p then none else (A.free x.buddy p).map fun b => { x with buddy := b }

/-- `kmem_obj_alloc`. -/
def kmemObjAlloc (x : Caches A) (k : VmCache) (stack : ℕ → BitVec 8) : Option ℕ × Caches A :=
  match (x.kmem k).kmemObjAlloc stack with
  | some (some a, y) => (some a, x.withKmem k y (insert a (x.live k)))
  | some (none, y) => (none, x.withKmem k y (x.live k))
  -- a slab of one page does not fail an `ASSERT`
  | none => (none, x)

/-- `kmem_obj_free`. -/
def kmemObjFree (x : Caches A) (k : VmCache) (a : ℕ) : Option (Caches A) :=
  ((x.kmem k).kmemObjFree a).map fun y => x.withKmem k y ((x.live k).erase a)

/-- How `kmem_obj_alloc` can end. -/
theorem Ok.kmemObjAlloc_cases (h : x.Ok) (stack : ℕ → BitVec 8) :
    (∃ y, x.kmemObjAlloc k stack = (none, x.withKmem k y (x.live k)) ∧ (x.kmem k).Own y ∧
      (∃ chain, SlabsInv k.objSize 0 chain (x.live k) y) ∧ (x.cache k).objNum = 0) ∨
    ∃ a y, x.kmemObjAlloc k stack = (some a, x.withKmem k y (insert a (x.live k))) ∧ a ≠ 0 ∧
      a ∉ x.live k ∧ (x.kmem k).Own y ∧
      (∃ chain, SlabsInv k.objSize 0 chain (insert a (x.live k)) y) ∧
      ((x.cache k).objNum ≠ 0 → (x.kmem k).take = some (some a, y)) := by
  obtain ⟨chain, hs⟩ := h.slabs k
  have hsz := k.objSize_fits
  unfold Caches.kmemObjAlloc
  rcases hs.kmemObjAlloc_spec hsz.pos hsz.lt stack with ⟨-, hk⟩ | ⟨y, hy, href, hcan⟩ |
    ⟨a, y, chain', hy, hfresh, -, hinv, -⟩
  · exact absurd hk (by decide)
  · rw [hy]
    exact .inl ⟨y, rfl, hs.kmemObjAlloc_own hsz.pos hsz.lt hy, ⟨chain, hs.growFailed href⟩, hcan.1⟩
  · rw [hy]
    refine .inr ⟨a, y, rfl, ?_, hfresh, hs.kmemObjAlloc_own hsz.pos hsz.lt hy, ⟨chain', hinv⟩,
      fun hnum => ?_⟩
    · -- an object lies behind the `slab_t`
      obtain ⟨p, hp, i, hi, -, rfl⟩ := (hinv.live_iff a).1 (Finset.mem_insert_self a _)
      have hpos := (A.block_va (hinv.block p hp)).2.1
      have := ((hinv.slab p hp).obj_within hi).1
      omega
    · unfold Kmem.kmemObjAlloc at hy
      rwa [if_neg (show (x.kmem k).cache.objNum ≠ 0 from hnum)] at hy

theorem Ok.kmemObjAlloc (h : x.Ok) (stack : ℕ → BitVec 8) : (x.kmemObjAlloc k stack).2.Ok := by
  rcases h.kmemObjAlloc_cases (k := k) stack with ⟨y, he, hown, hy, -⟩ |
    ⟨a, y, he, -, -, hown, hy, -⟩
  · rw [he]
    exact h.withKmem hown hy
  · rw [he]
    exact h.withKmem hown hy

theorem Ok.kmemObjFree {a : ℕ} {x' : Caches A} (h : x.Ok) (he : x.kmemObjFree k a = some x') :
    x'.Ok := by
  obtain ⟨y, hy, rfl⟩ := Option.map_eq_some_iff.1 he
  obtain ⟨chain, hs⟩ := h.slabs k
  refine h.withKmem (Kmem.kmemObjFree_own hy) ?_
  by_cases ha : a ∈ x.live k
  · obtain ⟨y', chain', hy', hinv, -⟩ := hs.kmemObjFree_spec k.objSize_fits ha
    rw [hy] at hy'
    cases hy'
    exact ⟨chain', hinv⟩
  · -- nothing happens to an address that is not handed out
    rcases hs.kmemObjFree_wrong k.objSize_fits.pos ha with hn | hx
    · rw [hy] at hn
      cases hn
    · rw [hy] at hx
      cases hx
      exact ⟨chain, by rwa [Finset.erase_eq_of_notMem ha]⟩

/-- The other clients of the page allocator leave the caches alone. -/
theorem Ok.withBuddy (h : x.Ok) {b : A.State}
    (hb : ∀ k, ∀ q ∈ (x.cache k).all, A.blocks b q = A.blocks x.buddy q) :
    Ok { x with buddy := b } where
  slabs k := by
    obtain ⟨chain, hs⟩ := h.slabs k
    exact ⟨chain, hs.congr rfl (hb k) (fun _ _ => rfl) fun _ _ => rfl⟩
  apart := h.apart

theorem Ok.bkpAlloc (h : x.Ok) (order : ℤ) : (x.bkpAlloc order).2.Ok := by
  refine h.withBuddy fun k q hq => ?_
  rcases halloc : A.alloc x.buddy order with ⟨_ | p, b⟩
  · rw [show b = (A.alloc x.buddy order).2 by rw [halloc]] at *
    rw [(A.alloc_none halloc).2]
  · obtain ⟨-, hsub, -, hblocks⟩ := A.alloc_some halloc
    rw [hblocks, Function.update_of_ne]
    rintro rfl
    exact h.notMem_free hq (hsub (self_mem_pagesOf q _))

/-- A block that is given back was handed out. -/
theorem freed {b : A.State} (hb : A.free x.buddy p = some b) : ∃ k, A.blocks x.buddy p = some k ∧
    A.freePages b = A.freePages x.buddy ∪ pagesOf p k ∧
    A.blocks b = Function.update (A.blocks x.buddy) p none := by
  obtain ⟨k, hk⟩ := Option.ne_none_iff_exists'.1 fun hn => by
    have := A.free_none x.buddy p hn
    rw [hb] at this
    cases this
  obtain ⟨b', hb', hfree, hblocks⟩ := A.free_some hk
  rw [hb] at hb'
  cases hb'
  exact ⟨k, hk, hfree, hblocks⟩

theorem Ok.bkpFree {x' : Caches A} (h : x.Ok) (he : x.bkpFree p = some x') : x'.Ok := by
  unfold Caches.bkpFree at he
  split_ifs at he with hp
  obtain ⟨b, hb, rfl⟩ := Option.map_eq_some_iff.1 he
  obtain ⟨k, -, -, hblocks⟩ := freed hb
  refine h.withBuddy fun k' q hq => ?_
  rw [hblocks, Function.update_of_ne]
  rintro rfl
  exact hp (isSlab_iff.2 ⟨k', hq⟩)

theorem pageSet_blocks {n : ℕ} :
    x.pageSet.blocks p = some n ↔ ¬ x.IsSlab p ∧ A.blocks x.buddy p = some n := by
  unfold Caches.pageSet
  dsimp only
  split_ifs with hs
  · exact iff_of_false nofun fun h => h.1 hs
  · exact (and_iff_right hs).symm

theorem pageSet_wellFormed (x : Caches A) : x.pageSet.WellFormed c := by
  have h := A.wellFormed x.buddy
  have hblock : ∀ p k, x.pageSet.blocks p = some k → A.blocks x.buddy p = some k := fun p k hp =>
    (pageSet_blocks.1 hp).2
  exact ⟨h.free_lt, fun p k hp => h.block_le p k (hblock p k hp),
    fun p k hp => h.order_lt p k (hblock p k hp), fun p k hp => h.not_null p k (hblock p k hp),
    fun p k q hp => h.not_free p k q (hblock p k hp),
    fun p k p' k' q hp hp' => h.block_unique p k p' k' q (hblock p k hp) (hblock p' k' hp')⟩

/-- A call on a cache does not change the blocks of the other clients. -/
theorem pageSet_withKmem (hown : (x.kmem k).Own y) (live : Finset ℕ) :
    (x.withKmem k y live).pageSet.free ⊆ x.pageSet.free ∧
      (x.withKmem k y live).pageSet.blocks = x.pageSet.blocks := by
  have hslab : ∀ q, (x.withKmem k y live).IsSlab q ↔
      q ∈ y.cache.all ∨ ∃ k', k' ≠ k ∧ q ∈ (x.cache k').all := by
    intro q
    rw [isSlab_iff]
    constructor
    · rintro ⟨k', hq⟩
      by_cases hk : k' = k
      · subst hk
        exact .inl (by rwa [withKmem_cache] at hq)
      · exact .inr ⟨k', hk, by rwa [withKmem_cache_of_ne hk] at hq⟩
    · rintro (hq | ⟨k', hk, hq⟩)
      · exact ⟨k, by rwa [withKmem_cache]⟩
      · exact ⟨k', by rwa [withKmem_cache_of_ne hk]⟩
  refine ⟨hown.free, funext fun q => ?_⟩
  show (if (x.withKmem k y live).IsSlab q then none else A.blocks y.buddy q) =
    if x.IsSlab q then none else A.blocks x.buddy q
  by_cases hy : q ∈ y.cache.all
  · rw [if_pos ((hslab q).2 (.inl hy))]
    split_ifs with hx
    · rfl
    · -- the page of a new slab was free
      rcases hown.all q hy with hq | hf
      · exact absurd (isSlab_iff.2 ⟨k, hq⟩) hx
      · exact (A.blocks_of_free hf).symm
  · have hiff : (x.withKmem k y live).IsSlab q ↔ x.IsSlab q := by
      rw [hslab, isSlab_iff, or_iff_right hy]
      refine exists_congr fun k' => and_iff_right_of_imp fun hq hk => ?_
      subst hk
      exact hy (hown.kept q hq)
    exact if_congr hiff rfl (hown.blocks q hy)

/-- A block of another client was handed out or given back. -/
theorem pageSet_withBuddy {b : A.State} {v : Option ℕ} (hp : ¬ x.IsSlab p)
    (hblocks : A.blocks b = Function.update (A.blocks x.buddy) p v) :
    Caches.pageSet { x with buddy := b } =
      ⟨A.freePages b, Function.update x.pageSet.blocks p v⟩ := by
  unfold Caches.pageSet
  dsimp only
  rw [hblocks]
  congr 1
  funext q
  by_cases hqp : q = p
  · subst hqp
    rw [Function.update_self, Function.update_self]
    exact if_neg hp
  · rw [Function.update_of_ne hqp, Function.update_of_ne hqp]
    rfl

theorem Ok.apply_bkpAlloc (h : x.Ok) (order : ℤ) : x.pageSet.Apply c.maxOrder (.alloc order)
    (.block (x.bkpAlloc order).1) (x.bkpAlloc order).2.pageSet := by
  unfold Caches.bkpAlloc
  rcases halloc : A.alloc x.buddy order with ⟨_ | p, b⟩
  · obtain ⟨hfree, hblocks⟩ := A.alloc_none halloc
    have hsame : Caches.pageSet { x with buddy := b } = x.pageSet := by
      unfold Caches.pageSet
      dsimp only
      rw [hfree, hblocks]
      rfl
    dsimp only
    rw [hsame]
    exact .allocNone _ _
  · obtain ⟨h0, hsub, hfree, hblocks⟩ := A.alloc_some halloc
    have hlt : order.toNat < c.maxOrder := by
      refine (A.wellFormed b).order_lt p order.toNat ?_
      show A.blocks b p = _
      rw [hblocks, Function.update_self]
    have hp : ¬ x.IsSlab p := fun hp => by
      obtain ⟨k, hk⟩ := isSlab_iff.1 hp
      exact h.notMem_free hk (hsub (self_mem_pagesOf p _))
    dsimp only
    rw [pageSet_withBuddy hp hblocks, hfree]
    obtain ⟨n, rfl⟩ := Int.eq_ofNat_of_zero_le h0
    exact .allocSome hlt hsub

theorem apply_bkpFree {n : ℕ} (hp : x.pageSet.blocks p = some n) : ∃ x', x.bkpFree p = some x' ∧
    x.pageSet.Apply c.maxOrder (.free p) .unit x'.pageSet := by
  obtain ⟨hslab, hblock⟩ := pageSet_blocks.1 hp
  obtain ⟨b, hb, hfree, hblocks⟩ := A.free_some hblock
  refine ⟨{ x with buddy := b }, ?_, ?_⟩
  · unfold Caches.bkpFree
    rw [if_neg hslab, hb]
    rfl
  · rw [pageSet_withBuddy hslab hblocks, hfree]
    exact .free hp

theorem bkpFree_none (hp : x.pageSet.blocks p = none) : x.bkpFree p = none := by
  unfold Caches.bkpFree
  split_ifs with hs
  · rfl
  · unfold Caches.pageSet at hp
    dsimp only at hp
    rw [if_neg hs] at hp
    rw [A.free_none x.buddy p hp]
    rfl

/-- The page allocator, as it is seen beside the caches. -/
def allocator (A : PageAllocator c) : PageAllocator c where
  State := { x : Caches A // x.Ok }
  pageSet x := x.1.pageSet
  alloc x order := ((x.1.bkpAlloc order).1, ⟨(x.1.bkpAlloc order).2, x.2.bkpAlloc order⟩)
  free x p := (x.1.bkpFree p).pmap Subtype.mk fun _ h => x.2.bkpFree h
  wellFormed x := x.1.pageSet_wellFormed
  alloc_apply x order := x.2.apply_bkpAlloc order
  free_apply x p k h := by
    obtain ⟨x', hx', happ⟩ := apply_bkpFree h
    exact ⟨⟨x', x.2.bkpFree hx'⟩, Option.pmap_eq_some_iff.2 ⟨x', _, hx', rfl⟩, happ⟩
  free_none x p h := Option.pmap_eq_none_iff.2 (bkpFree_none h)

end Caches

/-! ### The environment -/

variable {L : VmLayout}

/-- The environment with these caches, whose bytes on the stack are `stack`. -/
def VmEnv.ofCaches (A : PageAllocator L.toLayout) (stack : ℕ → BitVec 8) : VmEnv L where
  toPageAllocator := Caches.allocator A
  objAlloc x k := ((x.1.kmemObjAlloc k stack).1, ⟨(x.1.kmemObjAlloc k stack).2,
    x.2.kmemObjAlloc stack⟩)
  objFree x k a := (x.1.kmemObjFree k a).pmap Subtype.mk fun _ h => x.2.kmemObjFree h
  live x := x.1.live
  postInsert t a := SearchTree.avlNodePostInsert a t
  nodeErase t a := SearchTree.avlNodeErase a t
  objAlloc_pages x k := by
    show (x.1.kmemObjAlloc k stack).2.pageSet.free ⊆ _ ∧
      (x.1.kmemObjAlloc k stack).2.pageSet.blocks = _
    rcases x.2.kmemObjAlloc_cases (k := k) stack with ⟨y, he, hown, -⟩ | ⟨a, y, he, -, -, hown, -⟩
    · rw [he]
      exact Caches.pageSet_withKmem hown _
    · rw [he]
      exact Caches.pageSet_withKmem hown _
  objAlloc_none x k hn := by
    change (x.1.kmemObjAlloc k stack).1 = none at hn
    rcases x.2.kmemObjAlloc_cases (k := k) stack with ⟨y, he, -⟩ | ⟨a, y, he, -⟩
    · show (x.1.kmemObjAlloc k stack).2.live = _
      rw [he]
      exact Function.update_eq_self ..
    · rw [he] at hn
      cases hn
  objAlloc_some x k a hs := by
    change (x.1.kmemObjAlloc k stack).1 = some a at hs
    rcases x.2.kmemObjAlloc_cases (k := k) stack with ⟨y, he, -⟩ | ⟨b, y, he, h0, hfresh, -⟩
    · rw [he] at hs
      cases hs
    · rw [he] at hs
      cases hs
      refine ⟨h0, hfresh, ?_⟩
      show (x.1.kmemObjAlloc k stack).2.live = _
      rw [he]
      rfl
  objFree_live x k a ha := by
    obtain ⟨chain, hs⟩ := x.2.slabs k
    obtain ⟨y, chain', hy, -⟩ := hs.kmemObjFree_spec k.objSize_fits ha
    have hfree : x.1.kmemObjFree k a = some (x.1.withKmem k y ((x.1.live k).erase a)) := by
      unfold Caches.kmemObjFree
      rw [hy]
      rfl
    have hown := Kmem.kmemObjFree_own hy
    obtain ⟨hbuddy, -⟩ := Kmem.kmemObjFree_same hy
    refine ⟨⟨_, x.2.kmemObjFree hfree⟩, Option.pmap_eq_some_iff.2 ⟨_, _, hfree, rfl⟩, ?_, rfl⟩
    -- no page is taken
    have hset := Caches.pageSet_withKmem hown ((x.1.live k).erase a)
    show (x.1.withKmem k y ((x.1.live k).erase a)).pageSet = x.1.pageSet
    refine PageSet.ext (fun q => ?_) fun q => by rw [hset.2]
    show q ∈ A.freePages y.buddy ↔ q ∈ A.freePages x.1.buddy
    rw [hbuddy]
    rfl
  alloc_live _ _ := rfl
  free_live x p x' h := by
    obtain ⟨y, hy, he, rfl⟩ := Option.pmap_eq_some_iff.1 h
    unfold Caches.bkpFree at he
    split_ifs at he
    obtain ⟨b, -, rfl⟩ := Option.map_eq_some_iff.1 he
    rfl
  toList_postInsert _ _ := SearchTree.toList_avlNodePostInsert
  toList_nodeErase _ _ := SearchTree.toList_avlNodeErase

/-- The locks that its calls take; the caches lie at the addresses `cacheAt`. -/
def LockedEnv.ofCaches {A : PageAllocator L.toLayout} (E : LockedAllocator A)
    (stack : ℕ → BitVec 8) (cacheAt : VmCache → ℕ) : LockedEnv (VmEnv.ofCaches A stack) where
  allocOps x order := E.allocOps x.1.buddy order
  freeOps x p := E.freeOps x.1.buddy p
  alloc_neutral _ _ := E.alloc_neutral ..
  free_neutral _ _ := E.free_neutral ..
  objAllocOps x k := (x.1.kmem k).kmemObjAllocOps E (cacheAt k) stack
  objFreeOps x k a := (x.1.kmem k).kmemObjFreeOps (cacheAt k) a
  objAlloc_neutral _ _ := Kmem.kmemObjAllocOps_neutral ..
  objFree_neutral _ _ _ := Kmem.kmemObjFreeOps_neutral ..

end AcoOs
