/-
What the clients of the buddy allocator rely on.

The slab caches and the address spaces take blocks of pages from `bkp_alloc` and give
them back with `bkp_free`.  `PageAllocator` is their view of it: any state with two such
operations whose effect on the set of free pages and on the blocks handed out is that of
`PageSet.Apply`.  An allocator may fail whenever it likes, so a theorem about every
`PageAllocator` covers every pattern of failures.

`buddyAllocator` is the one there is.
-/
import AcoOs.BuddyLinear
import AcoOs.BuddyBoot

namespace AcoOs

open Buddy

variable {c : Layout}

/-- The pages of the block of order `k` that starts at page `p`. -/
def pagesOf (p k : ℕ) : Set ℕ := Set.Ico p (p + 2 ^ k)

theorem mem_pagesOf {p k q : ℕ} : q ∈ pagesOf p k ↔ p ≤ q ∧ q < p + 2 ^ k := Iff.rfl

theorem self_mem_pagesOf (p k : ℕ) : p ∈ pagesOf p k :=
  ⟨le_rfl, Nat.lt_add_of_pos_right (Nat.two_pow_pos k)⟩

/-- The free pages exist, and so do the blocks handed out, which contain no free page and
do not overlap; no block starts at the address `NULL`. -/
structure PageSet.WellFormed (c : Layout) (σ : PageSet) : Prop where
  free_lt : ∀ q ∈ σ.free, q < c.pageNums
  block_le : ∀ p k, σ.blocks p = some k → p + 2 ^ k ≤ c.pageNums
  order_lt : ∀ p k, σ.blocks p = some k → k < c.maxOrder
  not_null : ∀ p k, σ.blocks p = some k → c.pg2va p ≠ 0
  not_free : ∀ p k q, σ.blocks p = some k → q ∈ pagesOf p k → q ∉ σ.free
  block_unique : ∀ p k p' k' q, σ.blocks p = some k → σ.blocks p' = some k' →
    q ∈ pagesOf p k → q ∈ pagesOf p' k' → p = p'

/-- `bkp_alloc` and `bkp_free` over some state; `free` is `none` when an `ASSERT` fails, and
for a page that is not the first one of a block handed out. -/
structure PageAllocator (c : Layout) where
  State : Type
  pageSet : State → PageSet
  alloc : State → ℤ → Option ℕ × State
  free : State → ℕ → Option State
  wellFormed : ∀ s, (pageSet s).WellFormed c
  alloc_apply : ∀ s k,
    (pageSet s).Apply c.maxOrder (.alloc k) (.block (alloc s k).1) (pageSet (alloc s k).2)
  free_apply : ∀ s p k, (pageSet s).blocks p = some k →
    ∃ s', free s p = some s' ∧ (pageSet s).Apply c.maxOrder (.free p) .unit (pageSet s')
  free_none : ∀ s p, (pageSet s).blocks p = none → free s p = none

namespace PageAllocator

variable (A : PageAllocator c)

/-- The pages that are free. -/
def freePages (s : A.State) : Set ℕ := (A.pageSet s).free

/-- The orders of the blocks that are handed out. -/
def blocks (s : A.State) : ℕ → Option ℕ := (A.pageSet s).blocks

variable {A} {s s' : A.State} {p q k k' : ℕ}

theorem alloc_none {k : ℤ} (h : A.alloc s k = (none, s')) :
    A.freePages s' = A.freePages s ∧ A.blocks s' = A.blocks s := by
  have happ := A.alloc_apply s k
  rw [h] at happ
  unfold freePages blocks
  generalize A.pageSet s = σ at happ
  generalize A.pageSet s' = σ' at happ
  cases happ
  exact ⟨rfl, rfl⟩

theorem alloc_some {k : ℤ} (h : A.alloc s k = (some p, s')) : 0 ≤ k ∧
    pagesOf p k.toNat ⊆ A.freePages s ∧
    A.freePages s' = A.freePages s \ pagesOf p k.toNat ∧
    A.blocks s' = Function.update (A.blocks s) p (some k.toNat) := by
  have happ := A.alloc_apply s k
  rw [h] at happ
  unfold freePages blocks
  generalize A.pageSet s = σ at happ
  generalize A.pageSet s' = σ' at happ
  cases happ with
  | allocSome hk hsub => exact ⟨by omega, hsub, rfl, rfl⟩

theorem free_some (h : A.blocks s p = some k) : ∃ s', A.free s p = some s' ∧
    A.freePages s' = A.freePages s ∪ pagesOf p k ∧
    A.blocks s' = Function.update (A.blocks s) p none := by
  obtain ⟨s', hs', happ⟩ := A.free_apply s p k h
  refine ⟨s', hs', ?_⟩
  unfold freePages blocks
  unfold blocks at h
  generalize A.pageSet s = σ at happ h
  generalize A.pageSet s' = σ' at happ
  cases happ with
  | free hp =>
    rw [hp] at h
    cases h
    exact ⟨rfl, rfl⟩

/-- The block of a free page is handed out to nobody. -/
theorem blocks_of_free (h : q ∈ A.freePages s) : A.blocks s q = none := by
  by_contra hne
  obtain ⟨k, hk⟩ := Option.ne_none_iff_exists'.1 hne
  exact (A.wellFormed s).not_free q k q hk (self_mem_pagesOf q k) h

theorem blocks_disjoint (h : A.blocks s p = some k) (h' : A.blocks s q = some k') (hne : p ≠ q) :
    Disjoint (pagesOf p k) (pagesOf q k') := by
  rw [Set.disjoint_left]
  exact fun r hr hr' => hne ((A.wellFormed s).block_unique p k q k' r h h' hr hr')

theorem block_lt (h : A.blocks s p = some k) : p < c.pageNums := by
  have := (A.wellFormed s).block_le p k h
  have := Nat.two_pow_pos k
  omega

/-- What some calls of `bkp_alloc` and `bkp_free` make of a state. -/
inductive Evolves (A : PageAllocator c) (s : A.State) : A.State → Prop
  | refl : A.Evolves s s
  | alloc {t : A.State} (h : A.Evolves s t) (k : ℤ) : A.Evolves s (A.alloc t k).2
  | free {t u : A.State} {p : ℕ} (h : A.Evolves s t) (hf : A.free t p = some u) : A.Evolves s u

theorem Evolves.trans {s t u : A.State} (h : A.Evolves s t) (h' : A.Evolves t u) :
    A.Evolves s u := by
  induction h' with
  | refl => exact h
  | alloc _ k ih => exact ih.alloc k
  | free _ hf ih => exact ih.free hf

/-- What every call keeps, calls keep. -/
theorem Evolves.keep {α : Type*} {f : A.State → α} (halloc : ∀ s k, f (A.alloc s k).2 = f s)
    (hfree : ∀ s p s', A.free s p = some s' → f s' = f s) {s t : A.State}
    (h : A.Evolves s t) : f t = f s := by
  induction h with
  | refl => rfl
  | alloc _ k ih => rw [halloc, ih]
  | free _ hf ih => rw [hfree _ _ _ hf, ih]

end PageAllocator

/-! ### The buddy allocator -/

/-- What `bkp_alloc` leaves in the descriptor of a block of order `k`. -/
def Pageframe.handed (k : ℕ) : Pageframe :=
  { pgtype := .buddyAllocator, buddyFlags := flagHead, buddyOrder := k, refCount := 0 }

/-- The free pages and the blocks handed out in a sequential run. -/
def Handed.pageSet (c : Layout) (x : Handed) : PageSet where
  free := freePages c x.buddy
  blocks p := if p ∈ x.held then some (x.buddy.order p) else none

namespace RunInv

variable {R : FreeRange c} {x : Handed}

theorem blocks_iff {p k : ℕ} : (x.pageSet c).blocks p = some k ↔
    p ∈ x.held ∧ x.buddy.order p = k := by
  unfold Handed.pageSet
  dsimp only
  split_ifs with hp <;> simp [hp]

theorem pageSet_wellFormed (h : RunInv c R x) (h0 : 0 < c.vaStart) :
    (x.pageSet c).WellFormed c where
  free_lt q hq := by
    obtain ⟨p, hp, hf, -, hlt⟩ := h.inv.mem_freePages.1 hq
    exact lt_of_lt_of_le hlt (h.inv.block_le hp (.inr hf))
  block_le p k hk := by
    obtain ⟨hp, rfl⟩ := blocks_iff.1 hk
    obtain ⟨h1, h2⟩ := (h.held_iff p).1 hp
    exact h.inv.block_le h1 (.inl h2)
  order_lt p k hk := by
    obtain ⟨hp, rfl⟩ := blocks_iff.1 hk
    obtain ⟨h1, h2⟩ := (h.held_iff p).1 hp
    exact h.inv.order_lt p h1 (.inl h2)
  not_null p k hk := by
    obtain ⟨hp, -⟩ := blocks_iff.1 hk
    rw [Layout.pg2va_of_valid ((h.held_iff p).1 hp).1]
    omega
  not_free p k q hk hq := by
    obtain ⟨hp, rfl⟩ := blocks_iff.1 hk
    exact h.not_free hp hq
  block_unique p k p' k' q hk hk' hq hq' := by
    obtain ⟨hp, rfl⟩ := blocks_iff.1 hk
    obtain ⟨hp', rfl⟩ := blocks_iff.1 hk'
    exact h.block_disjoint hp hp' hq hq'

end RunInv

/-- `bkp_alloc` and `bkp_free` between calls of a sequential run.  Clients change the
`pgtype` of a block they own and put it back before they free it; only `bkp_free` of that
block reads it. -/
def buddyAllocator (c : Layout) (R : FreeRange c) (h0 : 0 < c.vaStart) : PageAllocator c where
  State := {x : Handed // RunInv c R x}
  pageSet x := x.1.pageSet c
  alloc x k :=
    match h : bkpAlloc c x.1.buddy k with
    | some (some p, s) => (some p, ⟨⟨s, insert p x.1.held⟩, x.2.step (.allocSome h)⟩)
    | some (none, s) => (none, ⟨⟨s, x.1.held⟩, x.2.step (.allocNone h)⟩)
    | none => (none, x)
  free x p :=
    if hp : p ∈ x.1.held then
      match h : bkpFree c x.1.buddy p with
      | some s => some ⟨⟨s, x.1.held.erase p⟩, x.2.step (.free hp h)⟩
      | none => none
    else none
  wellFormed x := x.2.pageSet_wellFormed h0
  alloc_apply x k := by
    obtain ⟨x, hx⟩ := x
    rcases hx.alloc_cases k with ⟨-, hn⟩ | ⟨hk, -, p, s, hp, -, a⟩
    · split
      · rename_i h
        rw [hn] at h
        cases h
      · rename_i h
        rw [hn] at h
        cases h
        exact .allocNone _ k
      · exact .allocNone _ k
    · split
      · rename_i h
        rw [hp] at h
        cases h
        obtain ⟨n, rfl⟩ := Int.eq_ofNat_of_zero_le hk.1
        have hset : Handed.pageSet c ⟨s, insert p x.held⟩ =
            ⟨(x.pageSet c).free \ Set.Ico p (p + 2 ^ n),
              Function.update (x.pageSet c).blocks p (some n)⟩ := by
          refine PageSet.ext (fun q => ?_) fun q => ?_
          · rw [show (Handed.pageSet c ⟨s, insert p x.held⟩).free = _ from a.pages_eq]
            rfl
          · dsimp only
            by_cases hqp : q = p
            · subst hqp
              rw [Function.update_self]
              exact (if_pos (Finset.mem_insert_self q _)).trans (by rw [a.order']; rfl)
            · rw [Function.update_of_ne hqp]
              unfold Handed.pageSet
              dsimp only
              simp only [Finset.mem_insert, hqp, false_or]
              split_ifs with hq
              · unfold Buddy.order
                rw [hx.alloc_other a hq (RunInv.mem_block_self _ q)]
              · rfl
        change PageSet.Apply _ _ _ _ (Handed.pageSet c ⟨s, insert p x.held⟩)
        rw [hset]
        exact .allocSome (by omega) a.sub
      · rename_i h
        rw [hp] at h
        cases h
      · rename_i h
        rw [hp] at h
        cases h
  free_apply x p k hk := by
    obtain ⟨x, hx⟩ := x
    obtain ⟨hp, rfl⟩ := RunInv.blocks_iff.1 hk
    obtain ⟨s, hs, hinv, a⟩ := hx.free_spec hp
    refine ⟨⟨⟨s, x.held.erase p⟩, hx.released hp hinv a⟩, ?_, ?_⟩
    · rw [dif_pos hp]
      split
      · rename_i h
        rw [hs] at h
        cases h
        rfl
      · rename_i h
        rw [hs] at h
        cases h
    · have hset : Handed.pageSet c ⟨s, x.held.erase p⟩ =
          ⟨(x.pageSet c).free ∪ Set.Ico p (p + 2 ^ x.buddy.order p),
            Function.update (x.pageSet c).blocks p none⟩ := by
        refine PageSet.ext (fun q => ?_) fun q => ?_
        · rw [show (Handed.pageSet c ⟨s, x.held.erase p⟩).free = _ from a.pages_eq]
          rfl
        · dsimp only
          by_cases hqp : q = p
          · rw [hqp, Function.update_self]
            exact if_neg (Finset.notMem_erase p _)
          · rw [Function.update_of_ne hqp]
            unfold Handed.pageSet
            dsimp only
            simp only [Finset.mem_erase, ne_eq, hqp, not_false_eq_true, true_and]
            split_ifs with hq
            · unfold Buddy.order
              rw [hx.free_other hp a hq hqp (RunInv.mem_block_self _ q)]
            · rfl
      change PageSet.Apply _ _ _ _ (Handed.pageSet c ⟨s, x.held.erase p⟩)
      rw [hset]
      exact .free hk
  free_none x p hp := by
    refine dif_neg fun hh => ?_
    rw [show (x.1.pageSet c).blocks p = some (x.1.buddy.order p) from if_pos hh] at hp
    cases hp

/-- An allocation succeeds when some pool of its order or above is not empty. -/
theorem buddyAllocator_succeeds {R : FreeRange c} {h0 : 0 < c.vaStart}
    {x : (buddyAllocator c R h0).State} {k : ℤ} {j : ℕ} (hk : 0 ≤ k) (hkj : k ≤ j)
    (hj : j < c.maxOrder)
    (hlist : (x.1.buddy.orderPools j).list ≠ []) :
    ∃ p x', (buddyAllocator c R h0).alloc x k = (some p, x') := by
  obtain ⟨x, hx⟩ := x
  rcases hx.alloc_cases k with ⟨hn | hn, -⟩ | ⟨-, -, p, s, hp, -, -⟩
  · omega
  · exact absurd (hn j hkj hj) hlist
  · unfold buddyAllocator
    dsimp only
    split
    · exact ⟨_, _, rfl⟩
    · rename_i h
      rw [hp] at h
      cases h
    · rename_i h
      rw [hp] at h
      cases h

/-- The buddy allocator as `buddy_module_init` leaves it. -/
def bootState (c : Layout) (R : FreeRange c) (h0 : 0 < c.vaStart) :
    (buddyAllocator c R h0).State :=
  ⟨⟨(buddyModuleInit c R.pages).get (by
      obtain ⟨s, hs, -⟩ := buddyModuleInit_spec R
      rw [hs]
      rfl), ∅⟩, runInv_of_reachable (.of_init ⟨(Option.some_get _).symm, rfl⟩)⟩

theorem bootState_eq (R : FreeRange c) (h0 : 0 < c.vaStart) :
    buddyModuleInit c R.pages = some (bootState c R h0).1.buddy := (Option.some_get _).symm

/-- Right after boot an allocation succeeds when there are pages for a block of its order. -/
theorem bootState_succeeds {R : FreeRange c} (h0 : 0 < c.vaStart) {k : ℤ} {j : ℕ} (hk : 0 ≤ k)
    (hkj : k ≤ j) (hj : j < c.maxOrder) (hrest : bootRest c.maxOrder R.count j ≠ 0) :
    ∃ p x', (buddyAllocator c R h0).alloc (bootState c R h0) k = (some p, x') := by
  refine buddyAllocator_succeeds hk hkj hj fun hnil => hrest ?_
  have hboot := boot_rest (bootState_eq R h0) hj
  rw [(bootState c R h0).2.inv.count j hj, hnil] at hboot
  exact_mod_cast hboot.symm

/-- The descriptor of a block that `bkp_alloc` returns. -/
theorem buddyAllocator_handed {R : FreeRange c} {h0 : 0 < c.vaStart}
    {x x' : (buddyAllocator c R h0).State} {p : ℕ} {k : ℤ}
    (h : (buddyAllocator c R h0).alloc x k = (some p, x')) :
    (x'.1.buddy.pages p).pgtype = .buddyAllocator ∧
      (x'.1.buddy.pages p).buddyFlags = flagHead ∧
      (x'.1.buddy.pages p).buddyOrder = k.toNat := by
  obtain ⟨x, hx⟩ := x
  unfold buddyAllocator at h
  dsimp only at h
  split at h
  · rename_i q s heq
    cases h
    rcases hx.alloc_cases k with ⟨-, hn⟩ | ⟨-, -, p', s', hp, -, a⟩
    · rw [hn] at heq
      cases heq
    · rw [hp] at heq
      cases heq
      exact ⟨a.type', a.held', a.order'⟩
  · cases h
  · cases h

end AcoOs
