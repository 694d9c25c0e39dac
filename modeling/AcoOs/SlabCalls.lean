/-
Single calls on a slab cache in every run.

Whatever the order of the slabs and however large the counter gets, the lists and the slabs of a
cache stay right (`slabs_reachable`).  What a call does to them follows from that.

* **`kmem_obj_free_wrong`** — an address that is not that of an object handed out is refused: the
  call returns or stops in an `ASSERT`, and nothing has changed;
* **`kmem_obj_alloc_exact`** — `kmem_obj_alloc` returns `NULL` just when every object is handed out
  and no slab can be added, and otherwise an object, as long as sizes and counters fit an `int`;
* **`not_kmem_obj_alloc_exact`** — with slabs of `2 ^ 31` bytes it does neither.
-/
import AcoOs.SlabAssert
import AcoOs.SlabRun

namespace AcoOs

open IndexQueue Machine

variable {c : Layout} {A : PageAllocator c}

/-! ### Runs of any length -/

/-- The arguments that `kmem_cache_init` does not refuse. -/
def KmemArgs.Accepted (c : Layout) (a : KmemArgs) : Prop :=
  ¬ (a.kmmCache = 0 ∨ a.objSize ≤ 0 ∨ ¬ (0 ≤ a.pgOrder ∧ a.pgOrder < c.maxOrder) ∨
    a.pgorLimit ≤ 0 ∨ a.initPgorAlloc < 0 ∨ a.pgorLimit < a.initPgorAlloc ∨
    orderBytes a.pgOrder.toNat ≤ a.objSize)

instance (a : KmemArgs) : Decidable (a.Accepted c) := inferInstanceAs (Decidable (¬ _))

/-- The cache before its first slab. -/
def KmemArgs.cache (a : KmemArgs) : KmemCache where
  objNum := 0
  objSize := a.objSize
  pgOrder := a.pgOrder
  pgOrlimit := a.pgorLimit
  pgOrhas := 0
  colorOffset := a.kmmCache % 2 ^ 31
  free := []
  full := []
  partialSlabs := []

/-- A size that `kmem_cache_init` accepts, whether an `int` can hold the size of a slab or not. -/
structure KmemArgs.Sized (a : KmemArgs) (z k : ℕ) : Prop where
  objSize : a.objSize = z
  pgOrder : a.pgOrder = k
  pos : 0 < z
  lt : z < orderBytes k

theorem KmemArgs.Accepted.sized {a : KmemArgs} (h : a.Accepted c) :
    a.Sized a.objSize.toNat a.pgOrder.toNat := by
  unfold KmemArgs.Accepted at h
  push Not at h
  obtain ⟨-, hobj, hk, -, -, -, hsize⟩ := h
  exact ⟨by omega, by omega, by omega, by omega⟩

namespace SlabsInv

variable {z k : ℕ} {chain : ℕ → List ℕ} {live : Finset ℕ} {x : Kmem A}

/-- A cache without slabs. -/
theorem empty {a : KmemArgs} (ha : a.Sized z k) (hlim : 0 ≤ a.pgorLimit) (x : Kmem A) :
    SlabsInv z k (fun _ => []) ∅ { x with cache := a.cache } := by
  have hnot : ∀ p, p ∉ a.cache.all := by
    intro p hp
    cases hp
  exact ⟨ha.objSize, ha.pgOrder, List.nodup_nil, rfl, hlim, fun p hp => absurd hp (hnot p),
    fun p hp => absurd hp (hnot p), fun p hp => absurd hp (hnot p), fun p hp => absurd hp (hnot p),
    fun p hp => absurd hp (hnot p), fun p hp => absurd hp (hnot p),
    (show (0 : ℤ) = int32 ((0 : ℕ) : ℤ) by decide),
    fun b => iff_of_false (Finset.notMem_empty b) fun ⟨p, hp, _⟩ => hnot p hp⟩

end SlabsInv

/-- `n` calls of `bkp_alloc` in a row succeed. -/
def PageAllocator.Grants (A : PageAllocator c) (k : ℤ) : ℕ → A.State → A.State → Prop
  | 0, s, t => t = s
  | n + 1, s, t => ∃ u p, A.Grants k n s u ∧ A.alloc u k = (some p, t)

theorem PageAllocator.Grants.unique {k : ℤ} {n : ℕ} {s t t' : A.State} (h : A.Grants k n s t)
    (h' : A.Grants k n s t') : t' = t := by
  induction n generalizing t t' with
  | zero => exact h'.trans h.symm
  | succ n ih =>
    obtain ⟨u, p, hu, ht⟩ := h
    obtain ⟨u', p', hu', ht'⟩ := h'
    rw [ih hu hu', ht] at ht'
    exact (congrArg Prod.snd ht').symm

theorem PageAllocator.Grants.prefix {k : ℤ} {n m : ℕ} {s t : A.State} (h : A.Grants k n s t)
    (hm : m ≤ n) : ∃ u, A.Grants k m s u := by
  induction n generalizing t with
  | zero => exact ⟨s, by rw [Nat.le_zero.1 hm]; rfl⟩
  | succ n ih =>
    rcases Nat.lt_or_ge n m with hlt | hle
    · obtain rfl : m = n + 1 := by omega
      exact ⟨t, h⟩
    · obtain ⟨u, p, hu, -⟩ := h
      exact ih hu hle

/-- `kmem_cache_init` has set up `n` slabs. -/
structure Loaded (z k : ℕ) (x y : Kmem A) (n : ℕ) : Prop where
  slabs : ∃ chain, SlabsInv z k chain ∅ y
  sized : n ≠ 0 → k ≤ 18 ∧ 0 < slabObjs (orderBytes k) z
  length : y.cache.free.length = n
  partialSlabs : y.cache.partialSlabs = []
  full : y.cache.full = []
  pgOrlimit : y.cache.pgOrlimit = x.cache.pgOrlimit
  grants : A.Grants k n x.buddy y.buddy
  freePages : A.freePages y.buddy ∪ ⋃ p ∈ y.cache.free, pagesOf p k = A.freePages x.buddy
  pages : ∀ q, q ∉ y.cache.free → y.pages q = x.pages q

namespace Loaded

variable {z k n : ℕ} {x y w : Kmem A}

theorem all_eq (h : Loaded z k x y n) : y.cache.all = y.cache.free := by
  unfold KmemCache.all
  rw [h.partialSlabs, h.full, List.append_nil, List.append_nil]

theorem pgOrhas (h : Loaded z k x y n) : y.cache.pgOrhas = n := by
  obtain ⟨chain, hs⟩ := h.slabs
  rw [hs.pgOrhas, h.all_eq, h.length]

/-- One more slab. -/
theorem add (h : Loaded z k x y n) {chain chain' : ℕ → List ℕ} {p : ℕ}
    (hadd : SlabAdded z k chain chain' y w p) (hw : SlabsInv z k chain' ∅ w) :
    Loaded z k x w (n + 1) := by
  obtain ⟨-, hsub, hfree, -⟩ := A.alloc_some hadd.alloc
  rw [Int.toNat_natCast] at hsub hfree
  refine ⟨⟨chain', hw⟩, fun _ => ⟨hadd.order_le, hadd.pos⟩, ?_,
    hadd.partialSlabs.trans h.partialSlabs, hadd.full.trans h.full,
    hadd.pgOrlimit.trans h.pgOrlimit, ⟨_, p, h.grants, hadd.alloc⟩, ?_, fun q hq => ?_⟩
  · rw [hadd.free, List.length_append, List.length_singleton, h.length]
  · rw [← h.freePages, hfree, hadd.free]
    ext q
    simp only [Set.mem_union, Set.mem_sdiff, Set.mem_iUnion, List.mem_append, List.mem_singleton]
    constructor
    · rintro (⟨hq, -⟩ | ⟨r, hr | rfl, hq⟩)
      · exact .inl hq
      · exact .inr ⟨r, hr, hq⟩
      · exact .inl (hsub hq)
    · rintro (hq | ⟨r, hr, hq⟩)
      · by_cases hqp : q ∈ pagesOf p k
        · exact .inr ⟨p, .inr rfl, hqp⟩
        · exact .inl ⟨hq, hqp⟩
      · exact .inr ⟨r, .inl hr, hq⟩
  · rw [hadd.free, List.mem_append, List.mem_singleton, not_or] at hq
    rw [hadd.pages q hq.2, h.pages q hq.1]

end Loaded

/-- The loop of `kmem_cache_init` sets up all slabs, or some until the next one is refused, or the
first one runs into an `ASSERT`. -/
theorem initLoop_loaded {z k : ℕ} {a : KmemArgs} (ha : a.Sized z k) (x : Kmem A)
    (hx : x.cache = a.cache) (stack : ℕ → ℕ → BitVec 8) :
    ∀ i : ℕ, i ≤ a.pgorLimit →
      (x.initLoop stack i = none ∧ 18 < k) ∨
      (∃ n < i, ∃ y w, x.initLoop stack i = some (false, w) ∧ Loaded z k x y n ∧
        SlabRefused k y w ∧ ((A.alloc y.buddy k).1 = none ∨ slabObjs (orderBytes k) z = 0)) ∨
      ∃ y, x.initLoop stack i = some (true, y) ∧ Loaded z k x y i := by
  intro i
  induction i with
  | zero =>
    intro hlim
    refine .inr (.inr ⟨x, rfl, ⟨fun _ => [], ?_⟩, fun h0 => absurd rfl h0, ?_, ?_, ?_, rfl, rfl, ?_,
      fun _ _ => rfl⟩)
    · have hempty := SlabsInv.empty ha hlim x
      rwa [← hx] at hempty
    · rw [hx]
      rfl
    · rw [hx]
      rfl
    · rw [hx]
      rfl
    · rw [hx]
      simp [KmemArgs.cache]
  | succ i ih =>
    intro hlim
    unfold Kmem.initLoop
    rcases ih (by omega) with ⟨hn, hk⟩ | ⟨n, hlt, y, w, hw, hy, hwhy⟩ | ⟨y, hy, hload⟩
    · rw [hn]
      exact .inl ⟨rfl, hk⟩
    · rw [hw]
      exact .inr (.inl ⟨n, by omega, y, w, rfl, hy, hwhy⟩)
    · rw [hy]
      obtain ⟨chain, hs⟩ := hload.slabs
      have hroom : y.cache.pgOrhas < y.cache.pgOrlimit := by
        rw [hload.pgOrhas, hload.pgOrlimit, hx]
        show (i : ℤ) < a.pgorLimit
        omega
      rcases hs.grow_spec ha.pos ha.lt (stack i) hroom with ⟨hg, hk, -⟩ | ⟨w, hg, hfail, hwhy⟩ |
        ⟨w, chain', p, hg, hinv, hadd⟩
      · exact .inl ⟨hg, hk⟩
      · exact .inr (.inl ⟨i, Nat.lt_succ_self i, y, w, hg, hload, hfail, hwhy⟩)
      · exact .inr (.inr ⟨w, hg, hload.add hadd hinv⟩)

/-- What every run keeps.  There are slabs only where an `int` can hold their size. -/
structure KmemRun.Inv (z k : ℕ) (chain : ℕ → List ℕ) (x : KmemRun A) : Prop where
  slabs : SlabsInv z k chain x.live x.kmem
  order_le : x.kmem.cache.all ≠ [] → k ≤ 18

namespace KmemRun.Inv

variable {z k : ℕ} {chain : ℕ → List ℕ} {x y : KmemRun A}

/-- Whoever has an object has a slab. -/
theorem size (h : x.Inv z k chain) (hz : 0 < z) (hlt : z < orderBytes k) {p : ℕ}
    (hp : p ∈ x.kmem.cache.all) : SlabSize z k :=
  ⟨hz, hlt, h.order_le (List.ne_nil_of_mem hp)⟩

theorem step (h : x.Inv z k chain) (hz : 0 < z) (hlt : z < orderBytes k) {a : KmemAct}
    (hs : KmemStep x a y) : ∃ chain', y.Inv z k chain' := by
  cases hs with
  | @allocSome stack a y he =>
    obtain ⟨-, hk, chain', hinv⟩ := h.slabs.kmemObjAlloc_some hz hlt he
    refine ⟨chain', hinv, fun _ => ?_⟩
    by_cases hall : x.kmem.cache.all = []
    · exact hk hall
    · exact h.order_le hall
  | @allocNone stack y he =>
    have hfail := h.slabs.kmemObjAlloc_none hz hlt he
    refine ⟨chain, h.slabs.growFailed hfail, fun hne => h.order_le ?_⟩
    rwa [← hfail.cache]
  | @free a y ha he =>
    obtain ⟨p, hp, -⟩ := (h.slabs.live_iff a).1 ha
    have hsz := h.size hz hlt hp
    obtain ⟨w, chain', hw, hinv, -⟩ := h.slabs.kmemObjFree_spec hsz ha
    rw [hw] at he
    cases he
    exact ⟨chain', hinv, fun _ => hsz.order_le⟩
  | other hcache hblock hpage hslab =>
    refine ⟨chain, h.slabs.congr hcache hblock hpage hslab, fun hne => h.order_le ?_⟩
    rwa [← hcache]

end KmemRun.Inv

theorem kmemCacheInit_accepted {x y : Kmem A} {a : KmemArgs} {stack : ℕ → ℕ → BitVec 8}
    (h : x.kmemCacheInit a stack = some (0, y)) : a.Accepted c := by
  by_contra hno
  unfold Kmem.kmemCacheInit at h
  rw [if_pos (not_not.1 hno)] at h
  cases h

/-- `kmem_cache_init` of arguments that are not refused. -/
theorem kmemCacheInit_eq {x : Kmem A} {a : KmemArgs} {stack : ℕ → ℕ → BitVec 8}
    (ha : a.Accepted c) : x.kmemCacheInit a stack =
      match Kmem.initLoop { x with cache := a.cache } stack a.initPgorAlloc.toNat with
      | none => none
      | some (true, x) => some (0, x)
      | some (false, x) =>
        match x.freeSlabs x.cache.free with
        | none => none
        | some x => some (-enomem, x) :=
  if_neg ha

theorem KmemArgs.Accepted.init_le {a : KmemArgs} (h : a.Accepted c) :
    ((a.initPgorAlloc.toNat : ℕ) : ℤ) ≤ a.pgorLimit := by
  unfold KmemArgs.Accepted at h
  push Not at h
  omega

/-- In every run the slabs of the cache are right. -/
theorem slabs_reachable (A : PageAllocator c) (a : KmemArgs) :
    ∀ x, (kmemRuns A a).Reachable x → a.Accepted c ∧
      ∃ chain, x.Inv a.objSize.toNat a.pgOrder.toNat chain := by
  intro x hx
  refine hx.invariant (P := fun x => a.Accepted c ∧
    ∃ chain, x.Inv a.objSize.toNat a.pgOrder.toNat chain) (fun x h0 => ?_) fun x b y _ h hs => ?_
  · obtain ⟨⟨x₀, stack, h0⟩, hlive⟩ := h0
    have ha := kmemCacheInit_accepted h0
    refine ⟨ha, ?_⟩
    rw [kmemCacheInit_eq ha] at h0
    rcases initLoop_loaded ha.sized { x₀ with cache := a.cache } rfl stack a.initPgorAlloc.toNat
      ha.init_le with ⟨hn, -⟩ | ⟨n, -, y, w, hw, -⟩ | ⟨y, hy, hload⟩
    · rw [hn] at h0
      cases h0
    · rw [hw] at h0
      dsimp only at h0
      split at h0 <;> cases h0
    · rw [hy] at h0
      cases h0
      obtain ⟨chain, hs⟩ := hload.slabs
      rw [← hlive] at hs
      refine ⟨chain, hs, fun hne => (hload.sized fun hn => hne ?_).1⟩
      rw [hload.all_eq, List.length_eq_zero_iff.1 (hload.length.trans hn)]
  · obtain ⟨ha, chain, h⟩ := h
    exact ⟨ha, h.step ha.sized.pos ha.sized.lt hs⟩

/-! ### Wrong frees -/

namespace SlabsInv

variable {z k : ℕ} {chain : ℕ → List ℕ} {live : Finset ℕ} {x : Kmem A}

/-- The search for a slab in a list whose slabs are as the loops assert. -/
theorem scan_mem (h : SlabsInv z k chain live x) (ok : Slab → Bool) (a : ℕ) {L : List ℕ}
    (hL : ∀ q ∈ L, q ∈ x.cache.all ∧ ok (x.slabs q)) :
    x.scan ok a L = some none ∨ ∃ p ∈ L, x.scan ok a L = some (some p) := by
  induction L with
  | nil => exact .inl rfl
  | cons q L ih =>
    obtain ⟨hq, hok⟩ := hL q List.mem_cons_self
    obtain ⟨h1, h2⟩ := h.page q hq
    unfold Kmem.scan
    rw [if_pos ⟨h1, h2, hok⟩]
    by_cases hcov : x.Covers a q
    · rw [if_pos hcov]
      exact .inr ⟨q, List.mem_cons_self, rfl⟩
    · rw [if_neg hcov]
      rcases ih fun r hr => hL r (List.mem_cons_of_mem q hr) with hn | ⟨p, hp, hs⟩
      · exact .inl hn
      · exact .inr ⟨p, List.mem_cons_of_mem q hp, hs⟩

/-- `slab_free` stops in an `ASSERT` unless the address is that of an object handed out. -/
theorem slabFree_wrong (h : SlabsInv z k chain live x) (hz : 0 < z) {p a : ℕ}
    (hp : p ∈ x.cache.all) (ha : a ∉ live) : slabFree (x.slabs p) a = none := by
  have hok := h.slab p hp
  unfold slabFree
  by_cases hrange : a ≠ 0 ∧ (x.slabs p).memObjStart ≤ a ∧
      a < (x.slabs p).memObjStart + (x.slabs p).objAll.toNat * (x.slabs p).objSize.toNat
  · rw [if_pos hrange]
    dsimp only
    rw [hok.objSize_eq, hok.objAll, Int.toNat_natCast, Int.toNat_natCast] at *
    obtain ⟨-, hlo, hhi⟩ := hrange
    by_cases hmod : (a - (x.slabs p).memObjStart) % z = 0
    · rw [if_pos hmod]
      have hdiv := Nat.div_add_mod (a - (x.slabs p).memObjStart) z
      set i := (a - (x.slabs p).memObjStart) / z with hi
      have hobj : a = (x.slabs p).obj i := by
        rw [hok.obj_eq]
        omega
      have hlt : i < slabObjs (orderBytes k) z := by
        rw [hi, Nat.div_lt_iff_lt_mul hz]
        omega
      -- an index outside the chain would be an object handed out
      have hmem : i ∈ chain p := by
        by_contra hno
        exact ha ((h.live_iff a).2 ⟨p, hp, i, hlt, hno, hobj⟩)
      rw [if_neg (hok.queue.entry_ne hmem)]
    · rw [if_neg hmod]
  · rw [if_neg hrange]

/-- `kmem_obj_free` of anything else leaves the cache alone. -/
theorem kmemObjFree_wrong (h : SlabsInv z k chain live x) (hz : 0 < z) {address : ℕ}
    (ha : address ∉ live) : x.kmemObjFree address = none ∨ x.kmemObjFree address = some x := by
  unfold Kmem.kmemObjFree
  by_cases h0 : address = 0
  · rw [if_pos h0]
    exact .inr rfl
  · rw [if_neg h0]
    rcases h.scan_mem (fun s => s.objFree < s.objAll) address fun q hq => h.partial_ok hq with
      hn | ⟨p, hp, hp'⟩
    · -- no partial slab covers the address
      rw [hn]
      dsimp only
      rcases h.scan_mem (fun s => s.objFree = 0) address fun q hq => h.full_ok hq with
        hn' | ⟨p, hp, hp'⟩
      · -- no slab does: nothing happens
        rw [hn']
        exact .inr rfl
      · rw [hp']
        dsimp only
        rw [h.slabFree_wrong hz (h.full_ok hp).1 ha]
        exact .inl rfl
    · rw [hp']
      dsimp only
      rw [h.slabFree_wrong hz (h.partial_ok hp).1 ha]
      exact .inl rfl

end SlabsInv

/-- `kmem_obj_free` of anything but an object that is handed out changes nothing: it returns, or
stops in an `ASSERT`, with the cache and the slabs it was called with. -/
theorem kmem_obj_free_wrong (A : PageAllocator c) (a : KmemArgs) (x : KmemRun A)
    (hx : (kmemRuns A a).Reachable x) (address : ℕ) (h : address ∉ x.live) :
    x.kmem.kmemObjFreeAt address = .ok x.kmem ∨
      x.kmem.kmemObjFreeAt address = .error x.kmem := by
  obtain ⟨ha, chain, hs, -⟩ := slabs_reachable A a x hx
  rw [Kmem.kmemObjFreeAt_eq]
  rcases hs.kmemObjFree_wrong ha.sized.pos h with hfree | hfree
  · rw [hfree]
    exact .inr rfl
  · rw [hfree]
    exact .inl rfl

/-- The middle of an object, and the first byte behind the slab. -/
theorem kmem_obj_free_wrong_inside :
    let c := Layout.ofPages 1 1 (by decide) (by decide)
    let A := buddyAllocator c (FreeRange.all c) (by decide)
    ∃ x, (kmemRuns A ⟨4096, 2000, 0, 1, 1⟩).Reachable x ∧ x.live = {2 ^ 31 + 48} ∧
      (x.kmem.kmemObjFreeAt (2 ^ 31 + 49) = .ok x.kmem ∨
        x.kmem.kmemObjFreeAt (2 ^ 31 + 49) = .error x.kmem) ∧
      (x.kmem.kmemObjFreeAt (2 ^ 31 + 4096) = .ok x.kmem ∨
        x.kmem.kmemObjFreeAt (2 ^ 31 + 4096) = .error x.kmem) := by
  intro c A
  obtain ⟨x, hx, hlive⟩ := kmemRuns_one_page
  refine ⟨x, hx.of_restrict, hlive, kmem_obj_free_wrong A _ x hx.of_restrict _ ?_,
    kmem_obj_free_wrong A _ x hx.of_restrict _ ?_⟩
  · rw [hlive]
    decide
  · rw [hlive]
    decide

/-! ### What `kmem_obj_alloc` returns -/

/-- All objects of all slabs are handed out. -/
def KmemRun.AllLive (x : KmemRun A) : Prop :=
  ∀ p ∈ x.kmem.cache.all, ∀ i < (x.kmem.slabs p).objAll.toNat, (x.kmem.slabs p).obj i ∈ x.live

/-- The cache cannot get one more slab. -/
def KmemRun.NoSlab (x : KmemRun A) : Prop :=
  x.kmem.cache.pgOrlimit ≤ x.kmem.cache.pgOrhas ∨
    (A.alloc x.kmem.buddy x.kmem.cache.pgOrder).1 = none ∨
    slabObjs (orderBytes x.kmem.cache.pgOrder.toNat) x.kmem.cache.objSize.toNat = 0

/-- `kmem_obj_alloc` returns `NULL` only if it must, and changes nothing then.  Otherwise it returns
an object that was not handed out, and counts it, after it has counted those of a new slab. -/
structure AllocExact (x : KmemRun A) (stack : ℕ → BitVec 8) : Prop where
  null_iff : (∃ y, x.kmem.kmemObjAlloc stack = some (none, y)) ↔ x.AllLive ∧ x.NoSlab
  null : ∀ y, x.kmem.kmemObjAlloc stack = some (none, y) →
    y.cache = x.kmem.cache ∧ y.slabs = x.kmem.slabs ∧
      A.freePages y.buddy = A.freePages x.kmem.buddy
  object : ¬ (x.AllLive ∧ x.NoSlab) → ∃ o y, x.kmem.kmemObjAlloc stack = some (some o, y) ∧
    o ∉ x.live ∧ (∃ p ∈ y.cache.all, ∃ i < (y.slabs p).objAll.toNat, o = (y.slabs p).obj i) ∧
    y.cache.objNum = x.kmem.cache.objNum + (if x.kmem.cache.objNum = 0 then
      slabObjs (orderBytes x.kmem.cache.pgOrder.toNat) x.kmem.cache.objSize.toNat else 0) - 1

namespace CacheInv

variable {z k : ℕ} {chain : ℕ → List ℕ} {x : KmemRun A}

/-- The counter is zero just when no object is left. -/
theorem objNum_eq_zero_iff (h : CacheInv z k chain x.live x.kmem) (hz : 0 < z) :
    x.kmem.cache.objNum = 0 ↔ x.AllLive := by
  have hsum : x.kmem.cache.objNum = 0 ↔ ∀ p ∈ x.kmem.cache.all, chain p = [] := by
    rw [h.objNum, Nat.cast_eq_zero, List.sum_eq_zero_iff]
    simp
  rw [hsum]
  refine forall₂_congr fun p hp => ?_
  have hok := h.slab p hp
  rw [hok.objAll, Int.toNat_natCast]
  constructor
  · intro hnil i hi
    exact (h.live_iff _).2 ⟨p, hp, i, hi, by rw [hnil]; exact List.not_mem_nil, rfl⟩
  · intro hlive
    refine List.eq_nil_iff_forall_not_mem.2 fun i hi => ?_
    have hlt := hok.queue.lt i hi
    obtain ⟨q, hq, j, hj, hn, he⟩ := (h.live_iff _).1 (hlive i hlt)
    obtain ⟨rfl, rfl⟩ := h.slabsInv.obj_inj hz hp hlt hq hj he
    exact hn hi

theorem cannotAlloc_iff (h : CacheInv z k chain x.live x.kmem) (hz : 0 < z) :
    CannotAlloc z k x.kmem ↔ x.AllLive ∧ x.NoSlab := by
  unfold CannotAlloc KmemRun.NoSlab
  rw [h.objNum_eq_zero_iff hz, h.pgOrder, h.objSize, Int.toNat_natCast, Int.toNat_natCast]

theorem allocExact (h : CacheInv z k chain x.live x.kmem) (hsz : SlabSize z k)
    (stack : ℕ → BitVec 8) : AllocExact x stack := by
  have hcan := h.cannotAlloc_iff hsz.pos
  rcases h.kmemObjAlloc_spec hsz stack with ⟨y, hy, hfail, hc, -⟩ |
    ⟨o, y, chain', hy, hfresh, hc, hinv, hnum⟩
  · rw [hcan] at hc
    refine ⟨iff_of_true ⟨y, hy⟩ hc, fun w hw => ?_, fun hno => absurd hc hno⟩
    rw [hy] at hw
    cases hw
    exact ⟨hfail.cache, hfail.slabs, hfail.freePages⟩
  · rw [hcan] at hc
    refine ⟨iff_of_false (fun ⟨w, hw⟩ => ?_) hc, fun w hw => ?_,
      fun _ => ⟨o, y, hy, hfresh, ?_, ?_⟩⟩
    · rw [hy] at hw
      cases hw
    · rw [hy] at hw
      cases hw
    · obtain ⟨p, hp, i, hi, -, he⟩ := (hinv.live_iff o).1 (Finset.mem_insert_self o x.live)
      refine ⟨p, hp, i, ?_, he⟩
      rwa [(hinv.slab p hp).objAll, Int.toNat_natCast]
    · rw [h.pgOrder, h.objSize, Int.toNat_natCast, Int.toNat_natCast]
      split_ifs at hnum ⊢ with h0
      · omega
      · omega

end CacheInv

/-- In every run in which sizes and counters fit an `int`, `kmem_obj_alloc` fails only when it must,
and cleanly. -/
theorem kmem_obj_alloc_exact (A : PageAllocator c) (a : KmemArgs) (hfit : a.Fits)
    (x : KmemRun A) (hx : ((kmemRuns A a).restrict KmemRun.FreeFits).Reachable x)
    (stack : ℕ → BitVec 8) : AllocExact x stack := by
  obtain ⟨hsz, chain, h⟩ := cacheInv_reachable hfit x hx
  exact h.allocExact hsz stack

/-- One of two objects of a page is handed out. -/
theorem kmem_obj_alloc_exact_one_page :
    let c := Layout.ofPages 1 1 (by decide) (by decide)
    let A := buddyAllocator c (FreeRange.all c) (by decide)
    ∃ x : KmemRun A, x.live = {2 ^ 31 + 48} ∧ AllocExact x fun _ => 0 := by
  intro c A
  obtain ⟨x, hx, hlive⟩ := kmemRuns_one_page
  exact ⟨x, hlive, kmem_obj_alloc_exact A _ ⟨by decide, by decide⟩ x hx _⟩

/-- With slabs of `2 ^ 31` bytes `kmem_obj_alloc` returns neither `NULL` nor an object, although
there is a block and an object fits in it. -/
theorem not_kmem_obj_alloc_exact :
    let c := Layout.ofPages 20 (2 ^ 19) (by decide) (by decide)
    let A := buddyAllocator c (FreeRange.all c) (by decide)
    ∃ x, (kmemRuns A ⟨4096, 1, 19, 1, 0⟩).Reachable x ∧ ∀ stack, ¬ AllocExact x stack := by
  intro c A
  obtain ⟨x, hx, hnone, hcache, hblock⟩ := kmemRuns_twenty
  refine ⟨x, hx, fun stack h => ?_⟩
  have hno : ¬ x.NoSlab := by
    unfold KmemRun.NoSlab
    rw [hcache]
    rintro (h1 | h2 | h3)
    · exact absurd h1 (by decide)
    · exact hblock h2
    · exact absurd h3 (by decide)
  obtain ⟨o, y, hy, -⟩ := h.object fun hc => hno hc.2
  rw [hnone] at hy
  cases hy

end AcoOs
