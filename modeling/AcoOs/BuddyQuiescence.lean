/-
Quiescence: every block that was handed out has been freed again.

All pages are free then, but `bkp_free` merges with any neighbour of the same order,
aligned or not, so the blocks need not be those boot made: four pages freed in the
order `1, 2, 0, 3` end as blocks of one, two and one pages, which no later free can
put together.

* `RunInv.quiescent`: the free pages and the number of pages in the pools are those
  of boot;
* `quiescence`: every pool has as many blocks as after boot, in all runs, exactly
  when there is one order only, or too few pages for two single pages to be cut off.
-/
import AcoOs.BuddyBoot

namespace AcoOs

open Tiling Buddy Machine

variable {c : Layout}

/-! ### Counting the pages of the pools -/

/-- The pools count the free pages. -/
theorem Inv.sum_rest {s : Buddy} {raw : Set ℕ} (h : Inv c s raw) :
    ∑ k ∈ Finset.range c.maxOrder, 2 ^ k * (s.orderPools k).list.length =
      (freePages c s).ncard := by
  have hself : ∀ k p, p ∈ Finset.Ico p (p + 2 ^ k) := fun k p =>
    Finset.mem_Ico.2 ⟨le_rfl, Nat.lt_add_of_pos_right (Nat.two_pow_pos k)⟩
  -- two blocks with a common page are one block, of one order
  have huniq : ∀ k < c.maxOrder, ∀ k' < c.maxOrder, ∀ p ∈ (s.orderPools k).list,
      ∀ p' ∈ (s.orderPools k').list, ∀ x, x ∈ Finset.Ico p (p + 2 ^ k) →
      x ∈ Finset.Ico p' (p' + 2 ^ k') → p = p' ∧ k = k' := by
    intro k hk k' hk' p hp p' hp' x hx hx'
    obtain ⟨h1, h2, rfl⟩ := (h.mem_list k hk p).1 hp
    obtain ⟨h1', h2', rfl⟩ := (h.mem_list k' hk' p').1 hp'
    have := h.block_unique h1 (.inr h2) h1' (.inr h2') (Finset.mem_Ico.1 hx)
      (Finset.mem_Ico.1 hx')
    exact ⟨this, this ▸ rfl⟩
  have hset : freePages c s = ((Finset.range c.maxOrder).biUnion fun k =>
      (s.orderPools k).list.toFinset.biUnion fun p => Finset.Ico p (p + 2 ^ k) :
        Finset ℕ) := by
    ext x
    simp only [freePages, Set.mem_ofPred_eq, Finset.coe_biUnion, Set.mem_iUnion₂,
      Finset.coe_range, Set.mem_Iio, Finset.coe_Ico, List.coe_toFinset, exists_prop]
  rw [hset, Set.ncard_coe_finset, Finset.card_biUnion]
  · refine Finset.sum_congr rfl fun k hk => ?_
    have hk := Finset.mem_range.1 hk
    rw [Finset.card_biUnion]
    · simp only [Nat.card_Ico, Nat.add_sub_cancel_left, Finset.sum_const, smul_eq_mul]
      rw [List.toFinset_card_of_nodup (h.nodup k hk), mul_comm]
    · intro p hp p' hp' hne
      rw [Function.onFun, Finset.disjoint_left]
      intro x hx hx'
      exact hne (huniq k hk k hk p (List.mem_toFinset.1 hp) p' (List.mem_toFinset.1 hp')
        x hx hx').1
  · intro k hk k' hk' hne
    rw [Function.onFun, Finset.disjoint_left]
    intro x hx hx'
    obtain ⟨p, hp, hx⟩ := Finset.mem_biUnion.1 hx
    obtain ⟨p', hp', hx'⟩ := Finset.mem_biUnion.1 hx'
    exact hne (huniq k (Finset.mem_range.1 hk) k' (Finset.mem_range.1 hk') p
      (List.mem_toFinset.1 hp) p' (List.mem_toFinset.1 hp') x hx hx').2

/-! ### Quiescent states -/

/-- The free block of page `p` alone. -/
def FreeSingle (s : Buddy) (p : ℕ) : Prop := s.FreeHead p ∧ s.order p = 0

namespace RunInv

variable {R : FreeRange c} {x : Handed}

/-- When nothing is handed out, every page is free and the pools count them all. -/
theorem quiescent (h : RunInv c R x) (h0 : x.held = ∅) :
    freePages c x.buddy = R.set ∧
      ∑ k ∈ Finset.range c.maxOrder, 2 ^ k * (x.buddy.orderPools k).list.length = R.count := by
  have hall : freePages c x.buddy = R.set := by
    rw [h.freePages_eq, h0]
    simp
  refine ⟨hall, ?_⟩
  rw [h.inv.sum_rest, hall, FreeRange.set, ← Finset.coe_Ico, Set.ncard_coe_finset, Nat.card_Ico]
  omega

theorem lt_of_mem (R : FreeRange c) {q : ℕ} (hq : q ∈ R.set) : q < c.pageNums :=
  lt_of_lt_of_le hq.2 R.le

/-- The page after a free single page begins a larger block. -/
theorem next_of_single (h : RunInv c R x) (h0 : x.held = ∅) (hm : 1 < c.maxOrder) {p : ℕ}
    (hp : FreeSingle x.buddy p) (hpR : p ∈ R.set) (hn : p + 1 ∈ R.set) :
    x.buddy.FreeHead (p + 1) ∧ 1 ≤ x.buddy.order (p + 1) := by
  have hpn := lt_of_mem R hpR
  have hnn := lt_of_mem R hn
  obtain ⟨r, hr, hh, hb⟩ := h.exists_head hnn hn
  have hnh : ¬ x.buddy.HeldHead r := by
    intro hheld
    have := (h.held_iff r).2 ⟨hr, hheld⟩
    rw [h0] at this
    exact absurd this (Finset.notMem_empty r)
  have hf : x.buddy.FreeHead r := hh.resolve_left hnh
  have hrp : r = p + 1 := by
    by_contra hne
    have hle : r ≤ p := by
      have := hb.1
      omega
    have hpr : p ∈ x.buddy.block r := ⟨hle, by have := hb.2; omega⟩
    have := h.inv.block_unique hr hh hpn (.inr hp.1) hpr (mem_block_self _ p)
    subst this
    have := hb.2
    rw [hp.2] at this
    omega
  subst hrp
  refine ⟨hf, ?_⟩
  by_contra hlt
  have hz : x.buddy.order (p + 1) = 0 := by omega
  have hc := h.inv.coalesced_iff.1 h.coalesced p hpn hp.1 (by rw [hp.2]; exact hm) (p + 1)
    hnn hf (by rw [hz, hp.2])
  rw [hp.2] at hc
  exact hc.2 rfl

/-- Free single pages are at least three pages apart. -/
theorem single_apart (h : RunInv c R x) (h0 : x.held = ∅) (hm : 1 < c.maxOrder) {p q : ℕ}
    (hp : FreeSingle x.buddy p) (hpR : p ∈ R.set) (hq : FreeSingle x.buddy q)
    (hqR : q ∈ R.set) (hlt : p < q) : p + 3 ≤ q := by
  have hn : p + 1 ∈ R.set := ⟨by have := hpR.1; omega, by have := hqR.2; omega⟩
  obtain ⟨h1, h2⟩ := h.next_of_single h0 hm hp hpR hn
  by_contra hge
  have hpow : 2 ^ 1 ≤ 2 ^ x.buddy.order (p + 1) := Nat.pow_le_pow_right (by norm_num) h2
  have := h.inv.block_unique (lt_of_mem R hn) (.inr h1) (lt_of_mem R hqR) (.inr hq.1)
    ⟨by omega, by omega⟩ (mem_block_self _ q)
  subst this
  have := hq.2
  omega

theorem mem_pool_zero (h : RunInv c R x) {p : ℕ} (hp : p ∈ (x.buddy.orderPools 0).list) :
    FreeSingle x.buddy p ∧ p ∈ R.set := by
  obtain ⟨h1, h2, h3⟩ := (h.inv.mem_list 0 c.maxOrder_pos p).1 hp
  exact ⟨⟨h2, h3⟩, h.block_sub h1 (.inr h2) (mem_block_self _ p)⟩

/-- In three pages there is at most one free single page. -/
theorem length_le_one (h : RunInv c R x) (h0 : x.held = ∅) (hm : 1 < c.maxOrder)
    (hn : R.count ≤ 3) : (x.buddy.orderPools 0).list.length ≤ 1 := by
  rw [← List.toFinset_card_of_nodup (h.inv.nodup 0 c.maxOrder_pos)]
  refine Finset.card_le_one.2 fun p hp q hq => ?_
  obtain ⟨hp1, hp2⟩ := h.mem_pool_zero (List.mem_toFinset.1 hp)
  obtain ⟨hq1, hq2⟩ := h.mem_pool_zero (List.mem_toFinset.1 hq)
  have h1 := h.single_apart h0 hm hp1 hp2 hq1 hq2
  have h2 := h.single_apart h0 hm hq1 hq2 hp1 hp2
  simp only [FreeRange.set, Set.mem_Ico] at hp2 hq2
  omega

/-- In six pages there are at most two free single pages. -/
theorem length_le_two (h : RunInv c R x) (h0 : x.held = ∅) (hm : 1 < c.maxOrder)
    (hn : R.count ≤ 6) : (x.buddy.orderPools 0).list.length ≤ 2 := by
  rw [← List.toFinset_card_of_nodup (h.inv.nodup 0 c.maxOrder_pos)]
  by_contra hlt
  obtain ⟨p, q, r, hp, hq, hr, hpq, hpr, hqr⟩ := Finset.two_lt_card_iff.1 (not_le.1 hlt)
  obtain ⟨hp1, hp2⟩ := h.mem_pool_zero (List.mem_toFinset.1 hp)
  obtain ⟨hq1, hq2⟩ := h.mem_pool_zero (List.mem_toFinset.1 hq)
  obtain ⟨hr1, hr2⟩ := h.mem_pool_zero (List.mem_toFinset.1 hr)
  have h1 := h.single_apart h0 hm hp1 hp2 hq1 hq2
  have h2 := h.single_apart h0 hm hq1 hq2 hp1 hp2
  have h3 := h.single_apart h0 hm hp1 hp2 hr1 hr2
  have h4 := h.single_apart h0 hm hr1 hr2 hp1 hp2
  have h5 := h.single_apart h0 hm hq1 hq2 hr1 hr2
  have h6 := h.single_apart h0 hm hr1 hr2 hq1 hq2
  simp only [FreeRange.set, Set.mem_Ico] at hp2 hq2 hr2
  omega

/-- With few pages the numbers of blocks are determined. -/
theorem length_of_small (h : RunInv c R x) (h0 : x.held = ∅) (hm : 1 < c.maxOrder)
    (hn : R.count ≤ 3 ∨ c.maxOrder = 2 ∧ R.count = 5) {k : ℕ} (hk : k < c.maxOrder) :
    (x.buddy.orderPools k).list.length =
      if k = 0 then R.count % 2 else if k = 1 then R.count / 2 else 0 := by
  set l : ℕ → ℕ := fun k => (x.buddy.orderPools k).list.length with hl
  have hsum : ∑ k ∈ Finset.range c.maxOrder, 2 ^ k * l k = R.count := (h.quiescent h0).2
  have hlarge : ∀ k, 2 ≤ k → k < c.maxOrder → l k = 0 := by
    intro k h2 hk
    have hle := Finset.single_le_sum (f := fun k => 2 ^ k * l k) (fun _ _ => Nat.zero_le _)
      (Finset.mem_range.2 hk)
    rw [hsum] at hle
    have hpow : 2 ^ 2 ≤ 2 ^ k := Nat.pow_le_pow_right (by norm_num) h2
    have hmul := Nat.mul_le_mul_right (l k) hpow
    omega
  have hsmall : l 0 + 2 * l 1 = R.count := by
    rw [← hsum, ← Finset.sum_subset (Finset.range_subset_range.2 hm)]
    · simp [Finset.sum_range_succ]
    · intro k hk hk'
      rw [Finset.mem_range] at hk hk'
      rw [hlarge k (by omega) hk, mul_zero]
  have hone : l 0 ≤ 1 := by
    rcases hn with hn | ⟨-, hn⟩
    · exact h.length_le_one h0 hm hn
    · have := h.length_le_two h0 hm (by omega)
      change l 0 ≤ 2 at this
      omega
  change l k = _
  split_ifs with hk0 hk1
  · subst hk0
    omega
  · subst hk1
    omega
  · exact hlarge k (by omega) hk

/-- With one order the pool has one block for each page. -/
theorem length_of_one_order (h : RunInv c R x) (h0 : x.held = ∅) (hm : c.maxOrder = 1) :
    (x.buddy.orderPools 0).list.length = R.count := by
  have hsum := (h.quiescent h0).2
  rwa [hm, Finset.sum_range_one, pow_zero, one_mul] at hsum

end RunInv

/-! ### Freeing single pages -/

/-- The merge loop does not touch a free single page, unless the block being freed is a
single page next to it. -/
theorem bkpFreeLoop_keeps {raw : Set ℕ} {r : ℕ} : ∀ (n : ℕ) {s s' : Buddy} {p k q k' : ℕ},
    Inv c s raw → p < c.pageNums → s.HeldHead p → (s.pages p).pgtype = .buddyAllocator →
    s.order p = k → n + k + 1 = c.maxOrder → FreeSingle s r →
    (k = 0 → r + 1 ≠ p ∧ p + 1 ≠ r) → bkpFreeLoop c n s p k = some (q, k', s') →
    FreeSingle s' r := by
  intro n
  induction n with
  | zero =>
    intro s s' p k q k' _ _ _ _ _ _ hr _ hl
    cases hl
    exact hr
  | succ n ih =>
    intro s s' p k q k' h hp hheld htype hord hk hr hne hl
    rw [bkpFreeLoop] at hl
    rcases merge_spec h hp hheld htype hord (by omega) with ⟨t, s₁, hm, hmerged⟩ | ⟨hm, -⟩
    · rw [hm] at hl
      obtain ⟨hmoved, hinv, hordt⟩ := hmerged.moved h htype
      refine ih hinv hmoved.lt hmoved.held' hmoved.type' hordt (by omega) ?_ (by omega) hl
      obtain ⟨lo, hi, linked, j, rfl, hlp, hplh, rfl⟩ := hmerged.exists_join
      have hrl : r ≠ linked := by
        rintro rfl
        have hheq := j.hi_eq
        have hko : s.order r = k := by
          rcases j.linked_mem with ⟨h1, -⟩ | ⟨h1, -⟩
          · exact h1 ▸ j.order_lo
          · exact h1 ▸ j.order_hi
        have hk0 : k = 0 := hko.symm.trans hr.2
        subst hk0
        obtain ⟨hne1, hne2⟩ := hne rfl
        rw [pow_zero] at hheq
        rcases j.linked_mem with ⟨h1, -⟩ | ⟨h1, -⟩ <;> rcases hplh with h2 | h2 <;> omega
      have hf := (j.freeHead_iff r).2 ⟨hr.1, hrl⟩
      refine ⟨hf, ?_⟩
      unfold Buddy.order
      rw [(hmoved.free_sub r hf).2]
      exact hr.2
    · rw [hm] at hl
      cases hl
      exact hr

/-- What freeing a held single page does to the single pages. -/
theorem bkpFree_single {s : Buddy} {raw : Set ℕ} {p : ℕ} (h : Inv c s raw)
    (hp : p < c.pageNums) (hheld : s.HeldHead p) (htype : (s.pages p).pgtype = .buddyAllocator)
    (hord : s.order p = 0) {s' : Buddy} (hf : bkpFree c s p = some s') :
    (∀ r, FreeSingle s r → r + 1 ≠ p → p + 1 ≠ r → FreeSingle s' r) ∧
      ((∀ r < c.pageNums, FreeSingle s r → r + 1 ≠ p ∧ p + 1 ≠ r) → FreeSingle s' p) := by
  have hentry : bkpFreeEntry c s p = some 0 := by
    rw [← hord]
    exact if_pos ⟨hp, htype, hheld, h.order_lt p hp (.inl hheld)⟩
  have hpos := c.maxOrder_pos
  obtain ⟨q, k', s₁, hloop, hinv₁, hm, hordq, -⟩ :=
    bkpFreeLoop_spec (c.maxOrder - 1) h hp hheld htype hord (by omega)
  obtain ⟨s₂, hins, i, -⟩ := insert_spec hinv₁ hm.lt hm.held' hm.type' hordq
  have hres : bkpFree c s p = some s₂ := by
    unfold bkpFree
    rw [hentry]
    simp only [Nat.sub_zero, hloop, hins]
  rw [hres] at hf
  cases hf
  constructor
  · intro r hr h1 h2
    have hr₁ := bkpFreeLoop_keeps _ h hp hheld htype hord (by omega) hr (fun _ => ⟨h1, h2⟩) hloop
    have hne : r ≠ q := by
      rintro rfl
      exact hr₁.1.not_held hm.held'
    unfold FreeSingle FreeHead Buddy.order at hr₁ ⊢
    rwa [i.other r hne]
  · intro hno
    have hstay : q = p ∧ k' = 0 := by
      rcases Nat.eq_or_lt_of_le hpos with h1 | h1
      · rw [← h1] at hloop
        cases hloop
        exact ⟨rfl, rfl⟩
      · obtain ⟨n, hn⟩ : ∃ n, c.maxOrder - 1 = n + 1 := ⟨c.maxOrder - 2, by omega⟩
        rw [hn, bkpFreeLoop] at hloop
        rcases merge_spec h hp hheld htype hord (by omega) with ⟨t, s₃, -, hmerged⟩ | ⟨hm', -⟩
        · obtain ⟨lo, hi, linked, j, rfl, hlp, hplh, rfl⟩ := hmerged.exists_join
          have hheq := j.hi_eq
          have hlo := j.lo_lt.trans j.hi_lt
          have hhi := j.hi_lt
          rw [pow_zero] at hheq
          have hlink : FreeSingle s linked ∧ linked < c.pageNums := by
            rcases j.linked_mem with ⟨h1, -⟩ | ⟨h1, -⟩
            · exact ⟨⟨j.linked_free, h1 ▸ j.order_lo⟩, h1 ▸ hlo⟩
            · exact ⟨⟨j.linked_free, h1 ▸ j.order_hi⟩, h1 ▸ hhi⟩
          have := hno linked hlink.2 hlink.1
          rcases j.linked_mem with ⟨h1, -⟩ | ⟨h1, -⟩ <;> rcases hplh with h2 | h2 <;> omega
        · rw [hm'] at hloop
          cases hloop
          exact ⟨rfl, rfl⟩
    obtain ⟨rfl, rfl⟩ := hstay
    exact ⟨i.free', i.order'⟩

/-- A reachable state in which every block handed out is a single page. -/
structure Singles (c : Layout) (R : FreeRange c) (x : Handed) : Prop where
  reachable : (buddyRuns c R).Reachable x
  single : ∀ p ∈ x.held, x.buddy.order p = 0

namespace Singles

variable {R : FreeRange c} {x : Handed}

theorem runInv (h : Singles c R x) : RunInv c R x := runInv_of_reachable h.reachable

theorem block_eq (h : Singles c R x) {p : ℕ} (hp : p ∈ x.held) : x.buddy.block p = {p} := by
  rw [block, h.single p hp]
  ext q
  simp only [Set.mem_Ico, Set.mem_singleton_iff]
  omega

theorem mem_set (h : Singles c R x) {p : ℕ} (hp : p ∈ x.held) : p ∈ R.set := by
  obtain ⟨h1, h2⟩ := (h.runInv.held_iff p).1 hp
  exact h.runInv.block_sub h1 (.inl h2) (RunInv.mem_block_self _ p)

/-- As long as a page is free, a single page can be allocated. -/
theorem alloc (h : Singles c R x) (hlt : x.held.card < R.count) :
    ∃ y, Singles c R y ∧ y.held.card = x.held.card + 1 := by
  have hinv := h.runInv
  obtain ⟨q, hq, hqh⟩ : ∃ q ∈ Finset.Ico R.start (R.start + R.count), q ∉ x.held := by
    refine Finset.exists_mem_notMem_of_card_lt_card ?_
    rw [Nat.card_Ico]
    omega
  have hfree : q ∈ freePages c x.buddy := by
    rw [hinv.freePages_eq]
    refine ⟨Finset.mem_Ico.1 hq, fun hin => ?_⟩
    obtain ⟨p, hp, hqp⟩ := Set.mem_iUnion₂.1 hin
    rw [h.block_eq hp] at hqp
    exact hqh ((Set.mem_singleton_iff.1 hqp) ▸ hp)
  obtain ⟨k, hk, p, hp, -⟩ := hfree
  rcases hinv.alloc_cases 0 with ⟨hno | hno, -⟩ | ⟨-, -, p', s, hs, hinv', a⟩
  · have := c.maxOrder_pos
    exact absurd ⟨le_rfl, by exact_mod_cast c.maxOrder_pos⟩ hno
  · rw [hno k (Int.natCast_nonneg k) hk] at hp
    exact absurd hp List.not_mem_nil
  · have hp' : p' ∉ x.held := fun hin =>
      hinv.not_free hin (RunInv.mem_block_self _ p') (a.sub ⟨le_rfl, by simp⟩)
    refine ⟨⟨s, insert p' x.held⟩, ⟨h.reachable.step (.allocSome hs), fun r hr => ?_⟩,
      Finset.card_insert_of_notMem hp'⟩
    rcases Finset.mem_insert.1 hr with rfl | hr
    · exact a.order'
    · dsimp only
      unfold Buddy.order
      rw [hinv.alloc_other a hr (RunInv.mem_block_self _ r)]
      exact h.single r hr

/-- Every page can be handed out as a block of its own. -/
theorem exists_all (R : FreeRange c) :
    ∃ x, Singles c R x ∧ ∀ p, p ∈ x.held ↔ p ∈ R.set := by
  have hcount : ∀ n ≤ R.count, ∃ x, Singles c R x ∧ x.held.card = n := by
    intro n
    induction n with
    | zero =>
      intro _
      obtain ⟨s, hs, -⟩ := buddyModuleInit_spec R
      exact ⟨⟨s, ∅⟩, ⟨.of_init ⟨hs, rfl⟩, by simp⟩, rfl⟩
    | succ n ih =>
      intro hn
      obtain ⟨x, hx, hcard⟩ := ih (by omega)
      obtain ⟨y, hy, hcard'⟩ := hx.alloc (by omega)
      exact ⟨y, hy, by omega⟩
  obtain ⟨x, hx, hcard⟩ := hcount R.count le_rfl
  have heq : x.held = Finset.Ico R.start (R.start + R.count) := by
    refine Finset.eq_of_subset_of_card_le (fun p hp => Finset.mem_Ico.2 (hx.mem_set hp)) ?_
    rw [Nat.card_Ico]
    omega
  refine ⟨x, hx, fun p => ?_⟩
  rw [heq, Finset.mem_Ico]
  rfl

/-- Free one page: free single pages that are not next to it stay, and it becomes one
itself when no free single page is next to it. -/
theorem free (h : Singles c R x) {p : ℕ} (hp : p ∈ x.held) :
    ∃ y, Singles c R y ∧ y.held = x.held.erase p ∧
      (∀ r, FreeSingle x.buddy r → r + 1 ≠ p → p + 1 ≠ r → FreeSingle y.buddy r) ∧
      ((∀ r < c.pageNums, FreeSingle x.buddy r → r + 1 ≠ p ∧ p + 1 ≠ r) →
        FreeSingle y.buddy p) := by
  have hinv := h.runInv
  obtain ⟨h1, h2⟩ := (hinv.held_iff p).1 hp
  obtain ⟨s, hs, -, a⟩ := hinv.free_spec hp
  obtain ⟨h3, h4⟩ := bkpFree_single hinv.inv h1 h2 (hinv.type p hp) (h.single p hp) hs
  refine ⟨⟨s, x.held.erase p⟩, ⟨h.reachable.step (.free hp hs), fun r hr => ?_⟩, rfl, h3, h4⟩
  obtain ⟨hrp, hr⟩ := Finset.mem_erase.1 hr
  dsimp only
  unfold Buddy.order
  rw [hinv.free_other hp a hr hrp (RunInv.mem_block_self _ r)]
  exact h.single r hr

/-- Free several pages: free single pages next to none of them stay. -/
theorem freeAll (h : Singles c R x) (F : Finset ℕ) : F ⊆ x.held →
    ∃ y, Singles c R y ∧ y.held = x.held \ F ∧
      ∀ r, FreeSingle x.buddy r → (∀ p ∈ F, r + 1 ≠ p ∧ p + 1 ≠ r) → FreeSingle y.buddy r := by
  induction F using Finset.induction with
  | empty =>
    intro _
    exact ⟨x, h, by simp, fun _ hr _ => hr⟩
  | insert p F hpF ih =>
    intro hsub
    obtain ⟨y, hy, hheld, hkeep⟩ := ih fun r hr => hsub (Finset.mem_insert_of_mem hr)
    have hp : p ∈ y.held := by
      rw [hheld, Finset.mem_sdiff]
      exact ⟨hsub (Finset.mem_insert_self p F), hpF⟩
    obtain ⟨z, hz, hheld', hkeep', -⟩ := hy.free hp
    refine ⟨z, hz, ?_, fun r hr hno => ?_⟩
    · rw [hheld', hheld]
      ext q
      simp only [Finset.mem_erase, Finset.mem_sdiff, Finset.mem_insert]
      tauto
    · obtain ⟨h1, h2⟩ := hno p (Finset.mem_insert_self p F)
      exact hkeep' r (hkeep r hr fun q hq => hno q (Finset.mem_insert_of_mem hq)) h1 h2

/-- A page that is not held is in a free block, which contains no page that is held. -/
theorem exists_free (h : Singles c R x) {q : ℕ} (hq : q ∈ R.set) (hqh : q ∉ x.held) :
    ∃ r, r < c.pageNums ∧ x.buddy.FreeHead r ∧ q ∈ x.buddy.block r ∧
      ∀ t ∈ x.held, t ∉ x.buddy.block r := by
  have hinv := h.runInv
  obtain ⟨r, hr, hh, hb⟩ := hinv.exists_head (RunInv.lt_of_mem R hq) hq
  have hf : x.buddy.FreeHead r := by
    refine hh.resolve_left fun hheld => hqh ?_
    have hin := (hinv.held_iff r).2 ⟨hr, hheld⟩
    rw [h.block_eq hin] at hb
    exact (Set.mem_singleton_iff.1 hb) ▸ hin
  refine ⟨r, hr, hf, hb, fun t ht htb => ?_⟩
  obtain ⟨ht1, ht2⟩ := (hinv.held_iff t).1 ht
  have := hinv.inv.block_unique hr hh ht1 (.inl ht2) htb (RunInv.mem_block_self _ t)
  subst this
  exact hf.not_held ht2

/-- Two neighbouring free pages between pages that are not free are one block. -/
theorem pair (h : Singles c R x) (hm : 1 < c.maxOrder) {p : ℕ} (hp : p ∈ R.set)
    (hp' : p + 1 ∈ R.set) (hph : p ∉ x.held) (hph' : p + 1 ∉ x.held)
    (hbef : ∀ r, r + 1 = p → r ∈ R.set → r ∈ x.held)
    (haft : p + 2 ∈ R.set → p + 2 ∈ x.held) :
    ¬ FreeSingle x.buddy p ∧ ¬ FreeSingle x.buddy (p + 1) := by
  have hinv := h.runInv
  have hpn := RunInv.lt_of_mem R hp
  have hpn' := RunInv.lt_of_mem R hp'
  obtain ⟨r, hr, hf, hb, hno⟩ := h.exists_free hp hph
  have hrp : r = p := by
    by_contra hne
    have hb1 := hb.1
    have hb2 := hb.2
    have hin : p - 1 ∈ x.buddy.block r := ⟨by omega, by omega⟩
    exact hno _ (hbef (p - 1) (by omega) (hinv.block_sub hr (.inr hf) hin)) hin
  subst hrp
  obtain ⟨q, hq, hfq, hbq, hnoq⟩ := h.exists_free hp' hph'
  have hlast : x.buddy.block q ⊆ Set.Iio (r + 2) := by
    intro t ht
    by_contra hge
    simp only [Set.mem_Iio] at hge
    have ht2 := ht.2
    have hq1 := hbq.1
    have hin : r + 2 ∈ x.buddy.block q := ⟨by omega, by omega⟩
    exact hnoq _ (haft (hinv.block_sub hq (.inr hfq) hin)) hin
  by_cases hqr : q = r
  · subst hqr
    have h2 := hbq.2
    have hord : x.buddy.order q ≠ 0 := by
      intro h0
      rw [h0] at h2
      omega
    refine ⟨fun hs => hord hs.2, fun hs => ?_⟩
    have := hinv.inv.block_unique hpn (.inr hf) hpn' (.inr hs.1) hbq
      (RunInv.mem_block_self _ _)
    omega
  · -- two blocks of one page each would have been merged
    exfalso
    have hq1 : q = r + 1 := by
      by_contra hne
      have hq2 := hbq.1
      have hq3 := hbq.2
      exact hqr (hinv.inv.block_unique hq (.inr hfq) hpn (.inr hf) ⟨by omega, by omega⟩
        (RunInv.mem_block_self _ r))
    subst hq1
    have hordq : x.buddy.order (r + 1) = 0 := by
      by_contra hne
      have hpow : 2 ^ 1 ≤ 2 ^ x.buddy.order (r + 1) :=
        Nat.pow_le_pow_right (by norm_num) (by omega)
      have hin : r + 2 ∈ x.buddy.block (r + 1) := ⟨by omega, by omega⟩
      exact absurd (hlast hin) (by simp)
    have hordr : x.buddy.order r = 0 := by
      by_contra hne
      have hpow : 2 ^ 1 ≤ 2 ^ x.buddy.order r :=
        Nat.pow_le_pow_right (by norm_num) (by omega)
      have := hinv.inv.block_unique hpn (.inr hf) hpn' (.inr hfq) ⟨by omega, by omega⟩
        (RunInv.mem_block_self _ (r + 1))
      omega
    have hc := hinv.inv.coalesced_iff.1 hinv.coalesced r hpn hf (by omega) (r + 1) hpn' hfq
      (by omega)
    rw [hordr] at hc
    exact hc.2 rfl

theorem mem_set_of_freeSingle (h : Singles c R x) {r : ℕ} (hr : r < c.pageNums)
    (hf : FreeSingle x.buddy r) : r ∈ R.set :=
  h.runInv.block_sub hr (.inr hf.1) (RunInv.mem_block_self _ r)

/-- Free the rest of the pages. -/
theorem freeRest (h : Singles c R x) : ∃ y, Singles c R y ∧ y.held = ∅ ∧
    ∀ r, FreeSingle x.buddy r → r + 1 ∉ x.held → (∀ q, q + 1 = r → q ∉ x.held) →
      FreeSingle y.buddy r := by
  obtain ⟨y, hy, hheld, hkeep⟩ := h.freeAll x.held (Finset.Subset.refl _)
  refine ⟨y, hy, by rw [hheld, Finset.sdiff_self], fun r hr h1 h2 => hkeep r hr fun p hp => ?_⟩
  exact ⟨fun e => h1 (e ▸ hp), fun e => h2 p e hp⟩

/-- Free the second and the third page, then the first: it is cut off. -/
theorem cutFirst (R : FreeRange c) (hm : 1 < c.maxOrder) (hn : 4 ≤ R.count) :
    ∃ x, Singles c R x ∧ FreeSingle x.buddy R.start ∧ ∀ p, p ∈ x.held ↔
      p ∈ R.set ∧ R.start + 3 ≤ p := by
  obtain ⟨x, hx, hall⟩ := exists_all R
  have hset : ∀ p, p ∈ R.set ↔ R.start ≤ p ∧ p < R.start + R.count := fun p => Iff.rfl
  obtain ⟨y, hy, hyheld, -⟩ := hx.freeAll {R.start + 1, R.start + 2} (by
    intro p hp
    rw [Finset.mem_insert, Finset.mem_singleton] at hp
    rw [hall, hset]
    omega)
  have hmem : ∀ p, p ∈ y.held ↔ p ∈ R.set ∧ p ≠ R.start + 1 ∧ p ≠ R.start + 2 := by
    intro p
    rw [hyheld, Finset.mem_sdiff, hall, Finset.mem_insert, Finset.mem_singleton, not_or]
  have hpair := hy.pair hm (p := R.start + 1) (by rw [hset]; omega) (by rw [hset]; omega)
    (by rw [hmem]; omega) (by rw [hmem]; omega)
    (fun r hr hrR => by rw [hmem, hset]; omega) (fun h3 => by rw [hmem, hset]; omega)
  obtain ⟨z, hz, hzheld, -, hcut⟩ := hy.free (p := R.start) (by rw [hmem, hset]; omega)
  refine ⟨z, hz, hcut fun r hr hf => ⟨fun e => ?_, fun e => ?_⟩, fun p => ?_⟩
  · have := (hset r).1 (hy.mem_set_of_freeSingle hr hf)
    omega
  · exact hpair.1 (e ▸ hf)
  · rw [hzheld, Finset.mem_erase, hmem, hset]
    omega

/-- With four pages or more the first one can end as a block of its own. -/
theorem exists_first (R : FreeRange c) (hm : 1 < c.maxOrder) (hn : 4 ≤ R.count) :
    ∃ x, Singles c R x ∧ x.held = ∅ ∧ FreeSingle x.buddy R.start := by
  obtain ⟨x, hx, hfirst, hmem⟩ := cutFirst R hm hn
  obtain ⟨y, hy, hheld, hkeep⟩ := hx.freeRest
  refine ⟨y, hy, hheld, hkeep _ hfirst ?_ fun q hq => ?_⟩ <;>
  · rw [hmem]
    omega

/-- With seven pages or more the first and the last can. -/
theorem exists_first_last (R : FreeRange c) (hm : 1 < c.maxOrder) (hn : 7 ≤ R.count) :
    ∃ x, Singles c R x ∧ x.held = ∅ ∧ FreeSingle x.buddy R.start ∧
      FreeSingle x.buddy (R.start + R.count - 1) := by
  have hset : ∀ p, p ∈ R.set ↔ R.start ≤ p ∧ p < R.start + R.count := fun p => Iff.rfl
  obtain ⟨x, hx, hfirst, hmem⟩ := cutFirst R hm (by omega)
  -- the last three pages, mirrored
  set e := R.start + R.count - 1 with he
  obtain ⟨y, hy, hyheld, hkeep⟩ := hx.freeAll {e - 2, e - 1} (by
    intro p hp
    rw [Finset.mem_insert, Finset.mem_singleton] at hp
    rw [hmem, hset]
    omega)
  have hymem : ∀ p, p ∈ y.held ↔ (p ∈ R.set ∧ R.start + 3 ≤ p) ∧ p ≠ e - 2 ∧ p ≠ e - 1 := by
    intro p
    rw [hyheld, Finset.mem_sdiff, hmem, Finset.mem_insert, Finset.mem_singleton, not_or]
  have hyfirst := hkeep _ hfirst fun p hp => by
    rw [Finset.mem_insert, Finset.mem_singleton] at hp
    omega
  have he1 : e - 2 + 1 = e - 1 := by omega
  have hpair := hy.pair hm (p := e - 2) (by rw [hset]; omega) (by rw [hset]; omega)
    (by rw [hymem]; omega) (by rw [hymem]; omega)
    (fun r hr hrR => by rw [hymem, hset]; omega) (fun h3 => by rw [hymem, hset]; omega)
  rw [he1] at hpair
  obtain ⟨z, hz, hzheld, hkeep', hcut⟩ := hy.free (p := e) (by rw [hymem, hset]; omega)
  have hzlast := hcut fun r hr hf => ⟨fun e' => hpair.2 (by rwa [← e', Nat.add_sub_cancel]), by
    have := (hset r).1 (hy.mem_set_of_freeSingle hr hf)
    omega⟩
  have hzfirst := hkeep' _ hyfirst (by omega) (by omega)
  obtain ⟨w, hw, hheld, hkeep''⟩ := hz.freeRest
  refine ⟨w, hw, hheld, hkeep'' _ hzfirst ?_ fun q hq => ?_,
    hkeep'' _ hzlast ?_ fun q hq => ?_⟩ <;>
  · rw [hzheld, Finset.mem_erase, hymem, hset]
    omega

/-- With five pages the middle one can. -/
theorem exists_middle (R : FreeRange c) (hm : 1 < c.maxOrder) (hn : R.count = 5) :
    ∃ x, Singles c R x ∧ x.held = ∅ ∧ FreeSingle x.buddy (R.start + 2) := by
  obtain ⟨x, hx, hall⟩ := exists_all R
  have hset : ∀ p, p ∈ R.set ↔ R.start ≤ p ∧ p < R.start + R.count := fun p => Iff.rfl
  obtain ⟨y, hy, hyheld, -⟩ := hx.freeAll (x.held.erase (R.start + 2)) (Finset.erase_subset _ _)
  have hmem : ∀ p, p ∈ y.held ↔ p = R.start + 2 := by
    intro p
    rw [hyheld, Finset.mem_sdiff, Finset.mem_erase, hall, hset]
    omega
  have hleft := hy.pair hm (p := R.start) (by rw [hset]; omega) (by rw [hset]; omega)
    (by rw [hmem]; omega) (by rw [hmem]; omega)
    (fun r hr hrR => by rw [hset] at hrR; omega) (fun h3 => by rw [hmem])
  have hright := hy.pair hm (p := R.start + 3) (by rw [hset]; omega) (by rw [hset]; omega)
    (by rw [hmem]; omega) (by rw [hmem]; omega)
    (fun r hr hrR => by rw [hmem]; omega) (fun h3 => by rw [hset] at h3; omega)
  obtain ⟨z, hz, hzheld, -, hcut⟩ := hy.free (p := R.start + 2) (by rw [hmem])
  refine ⟨z, hz, ?_, hcut fun r hr hf => ⟨fun e => ?_, fun e => ?_⟩⟩
  · ext q
    rw [hzheld, Finset.mem_erase, hmem]
    simp
  · have : r = R.start + 1 := by omega
    exact hleft.2 (this ▸ hf)
  · exact hright.1 (e ▸ hf)

end Singles

/-! ### Quiescence -/

/-- In every run that frees all it allocated, each pool has as many blocks as it had
right after boot. -/
def Restores (c : Layout) (R : FreeRange c) : Prop :=
  ∀ s, buddyModuleInit c R.pages = some s →
    ∀ x, (buddyRuns c R).Reachable x → x.held = ∅ →
      ∀ k < c.maxOrder, (x.buddy.orderPools k).restBlockNum = (s.orderPools k).restBlockNum

section Sizes

variable {R : FreeRange c} {x : Handed}

/-- The invariant right after boot. -/
theorem runInv_boot {s : Buddy} (hs : buddyModuleInit c R.pages = some s) :
    RunInv c R ⟨s, ∅⟩ :=
  runInv_of_reachable (.of_init ⟨hs, rfl⟩)

/-- The blocks that are left when nothing is held have all pages of the range. -/
theorem RunInv.sum_rest (h : RunInv c R x) (h0 : x.held = ∅) :
    ∑ k ∈ Finset.range c.maxOrder, 2 ^ k * (x.buddy.orderPools k).restBlockNum =
      (R.count : ℤ) := by
  rw [← (h.quiescent h0).2]
  push_cast
  exact Finset.sum_congr rfl fun k hk => by rw [h.inv.count k (Finset.mem_range.1 hk)]

theorem restores_of_small (hsmall : c.maxOrder = 1 ∨ R.count ≤ 3 ∨ c.maxOrder = 2 ∧ R.count = 5) :
    Restores c R := by
  intro s hs x hx h0 k hk
  have hinv := runInv_of_reachable hx
  have hboot := runInv_boot hs
  rw [hinv.inv.count k hk, hboot.inv.count k hk]
  by_cases hm : c.maxOrder = 1
  · have hk0 : k = 0 := by omega
    rw [hk0, hinv.length_of_one_order h0 hm, hboot.length_of_one_order rfl hm]
  · have hm' : 1 < c.maxOrder := by
      have := c.maxOrder_pos
      omega
    have hn := hsmall.resolve_left hm
    rw [hinv.length_of_small h0 hm' hn hk, hboot.length_of_small rfl hm' hn hk]

namespace Restores

/-- In a run that ends with nothing held the pools have the sizes they had at boot. -/
theorem length_eq (h : Restores c R) (hx : Singles c R x) (h0 : x.held = ∅) {k : ℕ}
    (hk : k < c.maxOrder) :
    (x.buddy.orderPools k).list.length = bootRest c.maxOrder R.count k := by
  obtain ⟨s, hs, -⟩ := buddyModuleInit_spec R
  have h1 := h s hs x hx.reachable h0 k hk
  rw [boot_rest hs hk, hx.runInv.inv.count k hk] at h1
  exact_mod_cast h1

/-- Every single page is counted in the pool of order `0`, where boot leaves one at most. -/
theorem single_unique (h : Restores c R) (hm : 1 < c.maxOrder) (hx : Singles c R x)
    (h0 : x.held = ∅) {p q : ℕ} (hp : p < R.start + R.count) (hfp : FreeSingle x.buddy p)
    (hq : q < R.start + R.count) (hfq : FreeSingle x.buddy q) : R.count % 2 = 1 ∧ p = q := by
  have hle := R.le
  have hmem : ∀ r, r < R.start + R.count → FreeSingle x.buddy r →
      r ∈ (x.buddy.orderPools 0).list := fun r hr hf =>
    (hx.runInv.inv.mem_list 0 c.maxOrder_pos r).2 ⟨by omega, hf⟩
  have hlen := h.length_eq hx h0 c.maxOrder_pos
  rw [bootRest, if_neg (by omega), pow_zero, Nat.div_one] at hlen
  have hpos := List.length_pos_of_mem (hmem p hp hfp)
  obtain ⟨a, ha⟩ := List.length_eq_one_iff.1 (by omega :
    (x.buddy.orderPools 0).list.length = 1)
  have hpa := hmem p hp hfp
  have hqa := hmem q hq hfq
  rw [ha, List.mem_singleton] at hpa hqa
  exact ⟨by omega, hpa.trans hqa.symm⟩

/-- Of five pages boot makes a block of four, which contains the middle page. -/
theorem not_five (h : Restores c R) (hm : 2 < c.maxOrder) : R.count ≠ 5 := by
  intro h5
  obtain ⟨x, hx, h0, hf⟩ := Singles.exists_middle R (by omega) h5
  have hle := R.le
  have hlen := h.length_eq hx h0 hm
  have hboot : bootRest c.maxOrder R.count 2 = 1 := by
    rw [h5, bootRest]
    split_ifs <;> rfl
  rw [hboot] at hlen
  obtain ⟨a, ha⟩ := List.length_eq_one_iff.1 hlen
  obtain ⟨ha1, ha2, ha3⟩ :=
    (hx.runInv.inv.mem_list 2 hm a).1 (ha ▸ List.mem_singleton_self a)
  have hsub := hx.runInv.block_sub ha1 (.inr ha2)
  have hpow : 2 ^ x.buddy.order a = 4 := by rw [ha3]; rfl
  have hfirst := hsub (RunInv.mem_block_self _ a)
  have hlast := hsub (show a + 3 ∈ x.buddy.block a from ⟨by omega, by omega⟩)
  simp only [FreeRange.set, Set.mem_Ico] at hfirst hlast
  have := hx.runInv.inv.block_unique ha1 (.inr ha2) (by omega) (.inr hf.1)
    (show R.start + 2 ∈ x.buddy.block a from ⟨by omega, by omega⟩)
    (RunInv.mem_block_self _ _)
  subst this
  have := hf.2
  omega

/-- Otherwise a run leaves too many single pages, or too few blocks of four. -/
theorem small (h : Restores c R) :
    c.maxOrder = 1 ∨ R.count ≤ 3 ∨ c.maxOrder = 2 ∧ R.count = 5 := by
  by_contra hlarge
  push Not at hlarge
  obtain ⟨hm, hn, h5⟩ := hlarge
  have hpos := c.maxOrder_pos
  have hm' : 1 < c.maxOrder := by omega
  rcases Nat.even_or_odd R.count with heven | hodd
  · obtain ⟨x, hx, h0, hf⟩ := Singles.exists_first R hm' (by omega)
    have hone := (h.single_unique hm' hx h0 (by omega) hf (by omega) hf).1
    have := Nat.even_iff.1 heven
    omega
  · have hmod := Nat.odd_iff.1 hodd
    by_cases h7 : 7 ≤ R.count
    · obtain ⟨x, hx, h0, hf, hl⟩ := Singles.exists_first_last R hm' h7
      have := (h.single_unique hm' hx h0 (by omega) hf (by omega) hl).2
      omega
    · exact h.not_five (by omega) (by omega)

end Restores

end Sizes

/-- When all blocks are free again, so are all pages, and no two neighbouring free blocks
below the top order have the same order.  The numbers of blocks are those of boot in
every run exactly when there is only one order or too few pages for a fragmented rest. -/
theorem quiescence (R : FreeRange c) :
    (∀ s, buddyModuleInit c R.pages = some s →
      ∀ x, (buddyRuns c R).Reachable x → x.held = ∅ →
        freePages c x.buddy = freePages c s ∧
        ∑ k ∈ Finset.range c.maxOrder, 2 ^ k * (x.buddy.orderPools k).restBlockNum =
          ∑ k ∈ Finset.range c.maxOrder, 2 ^ k * (s.orderPools k).restBlockNum ∧
        Coalesced c x.buddy) ∧
    (Restores c R ↔
      c.maxOrder = 1 ∨ R.count ≤ 3 ∨ c.maxOrder = 2 ∧ R.count = 5) := by
  refine ⟨fun s hs x hx h0 => ?_, fun h => h.small, restores_of_small⟩
  have hinv := runInv_of_reachable hx
  refine ⟨?_, ?_, hinv.coalesced⟩
  · rw [(hinv.quiescent h0).1, ((runInv_boot hs).quiescent rfl).1]
  · rw [hinv.sum_rest h0, (runInv_boot hs).sum_rest rfl]

/-- Four pages, freed in the order `1, 2, 0, 3`: boot made one block of four pages, in
the end the blocks have one, two and one pages. -/
theorem not_restores_four_pages :
    let c := Layout.ofPages 3 4 (by decide) (by decide)
    ¬ Restores c (FreeRange.all c) := by
  intro c h
  let as : List Call := [.alloc 0 (some 0), .alloc 0 (some 3), .alloc 0 (some 1),
    .alloc 0 (some 2), .free 1, .free 2, .free 0, .free 3]
  have hrun : (bootAndRun c (FreeRange.all c) as).map
      (fun x => (x.held, (x.buddy.orderPools 2).restBlockNum)) = some (∅, 0) := by decide
  have hboot : (buddyModuleInit c (FreeRange.all c).pages).map
      (fun s => (s.orderPools 2).restBlockNum) = some 1 := by decide
  obtain ⟨x, hx, hxv⟩ := Option.map_eq_some_iff.1 hrun
  obtain ⟨s, hs, hsv⟩ := Option.map_eq_some_iff.1 hboot
  obtain ⟨h1, h2⟩ := Prod.mk.inj hxv
  have := h s hs x (reachable_bootAndRun hx) h1 2 (by decide)
  rw [h2, hsv] at this
  exact absurd this (by decide)

end AcoOs
