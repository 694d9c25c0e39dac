/-
Sequential runs of the buddy allocator.

The system `buddyRuns c R` starts in the state `buddy_module_init` leaves when the
free pages are the range `R`, and takes one call of `bkp_alloc` or of `bkp_free`
(of a block currently handed out) at each step.  `RunInv` is what holds between
any two calls; the representation of the page array and of the pools, the
refinement of an allocator over a set of pages, and the completeness of
coalescing are read off it.
-/
import AcoOs.BuddySequential
import AcoOs.Machine

namespace AcoOs

open Tiling Buddy Machine

variable {c : Layout}

/-- The contiguous pages that `pgfm_module_init` leaves free. -/
structure FreeRange (c : Layout) where
  start : ℕ
  count : ℕ
  le : start + count ≤ c.pageNums

namespace FreeRange

variable (R : FreeRange c)

/-- The pages of the range. -/
def set : Set ℕ := Set.Ico R.start (R.start + R.count)

instance (i : ℕ) : Decidable (i ∈ R.set) := inferInstanceAs (Decidable (_ ∧ _))

/-- The page array as `pgfm_module_init` sets it up. -/
def pages (i : ℕ) : Pageframe where
  pgtype := .buddyAllocator
  buddyOrder := 0
  refCount := 0
  buddyFlags := if R.start ≤ i ∧ i < R.start + R.count then flagHead else flagStatic

/-- The page array with the pools still empty. -/
def boot : Buddy := { pages := R.pages, orderPools := initPools }

theorem order_boot (i : ℕ) : R.boot.order i = 0 := rfl

theorem heldHead_boot (i : ℕ) : R.boot.HeldHead i ↔ i ∈ R.set := by
  unfold HeldHead Pageframe.Freeable boot pages set
  dsimp only
  split_ifs with h
  · exact iff_of_true rfl h
  · exact iff_of_false (by decide) h

theorem freeHead_boot (i : ℕ) : ¬ R.boot.FreeHead i := by
  unfold FreeHead Pageframe.Infrlist boot pages
  dsimp only
  split_ifs <;> decide

theorem static_boot (i : ℕ) : R.boot.Static i ↔ i ∉ R.set := by
  unfold Static boot pages set
  dsimp only
  split_ifs with h
  · exact iff_of_false (by decide) (not_not.2 h)
  · exact iff_of_true rfl h

theorem head_boot (i : ℕ) : R.boot.Head i ↔ i ∈ R.set := by
  unfold Head
  rw [R.heldHead_boot, or_iff_left (R.freeHead_boot i)]

theorem inv_boot : Inv c R.boot ∅ := by
  have hlen : ∀ p, R.boot.len c p = if p ∈ R.set then 1 else 0 := by
    intro p
    unfold len
    rw [R.order_boot, pow_zero]
    refine if_congr ?_ rfl rfl
    rw [R.head_boot]
    refine and_iff_right_of_imp fun h => ?_
    have := R.le
    have := h.2
    omega
  refine ⟨fun p _ => ?_, fun _ _ _ => rfl, fun p _ _ => ?_, ?_,
    fun q h => absurd h (Set.notMem_empty q), fun _ _ => List.nodup_nil, fun k _ p => ?_,
    fun _ _ => rfl, fun k _ => by simp only [boot, initPools]⟩
  · rw [R.static_boot, R.head_boot]
    tauto
  · rw [R.order_boot]
    exact c.maxOrder_pos
  · have hle := R.le
    refine ⟨fun p hp => ?_, fun p q hpq hq => ?_, fun p q hpq hq => ?_, fun q hq hs => ?_⟩
    · rw [hlen] at hp ⊢
      split_ifs at hp ⊢ with h
      · have := h.2
        omega
      · omega
    · rw [hlen] at hq
      split_ifs at hq <;> omega
    · rw [hlen] at hq
      split_ifs at hq with h
      · have : q = p := by omega
        subst this
        rintro (hs | hs)
        · exact (R.static_boot q).1 hs h
        · exact hs
      · omega
    · refine ⟨q, le_rfl, ?_⟩
      have hmem : q ∈ R.set := by
        by_contra h
        exact hs (.inl ((R.static_boot q).2 h))
      rw [hlen, if_pos hmem]
      omega
  · exact iff_of_false (by simp [boot, initPools]) fun h => R.freeHead_boot p h.2.1

theorem freePages_boot : freePages c R.boot = ∅ := by
  ext x
  rw [R.inv_boot.mem_freePages]
  exact iff_of_false (fun ⟨p, _, hf, _⟩ => R.freeHead_boot p hf) (Set.notMem_empty x)

end FreeRange

/-! ### Boot -/

/-- The loop of `buddy_module_init` after the pages below `i`. -/
structure BootInv (c : Layout) (R : FreeRange c) (i : ℕ) (s : Buddy) : Prop where
  inv : Inv c s ∅
  held_iff : ∀ p < c.pageNums, s.HeldHead p ↔ p ∈ R.set ∧ i ≤ p
  untouched : ∀ p, i ≤ p → s.pages p = R.pages p
  static_iff : ∀ p, s.Static p ↔ p ∉ R.set
  freePages_eq : freePages c s = {x ∈ R.set | x < i}
  coalesced : Coalesced c s

theorem initFree_spec (R : FreeRange c) : ∀ i ≤ c.pageNums,
    ∃ s, initFree c i R.boot = some s ∧ BootInv c R i s := by
  intro i
  induction i with
  | zero =>
    intro _
    refine ⟨R.boot, rfl, R.inv_boot, fun p _ => ?_, fun _ _ => rfl, R.static_boot, ?_, ?_⟩
    · rw [R.heldHead_boot]
      simp
    · rw [R.freePages_boot]
      simp
    · intro k _ p hp
      exact absurd hp (by simp [FreeRange.boot, initPools])
  | succ i ih =>
    intro hi
    obtain ⟨s, hs, b⟩ := ih (by omega)
    rw [initFree, hs]
    by_cases hf : (s.pages i).Freeable
    · have hin := ((b.held_iff i hi).1 hf).1
      have hpage := b.untouched i le_rfl
      have hord : s.order i = 0 := by rw [Buddy.order, hpage]; rfl
      have hblock : s.block i = {i} := by
        rw [block, hord]
        ext x
        simp only [Set.mem_Ico, Set.mem_singleton_iff]
        omega
      obtain ⟨s', hfree, hinv, hr⟩ := bkpFree_spec b.inv hi hf (by rw [hpage]; rfl)
      rw [hblock] at hr
      refine ⟨s', by simp only [if_pos hf, hfree], hinv, fun p hp => ?_, fun p hp => ?_,
        fun p => (hr.static_iff p).trans (b.static_iff p), ?_, hr.coalesced b.coalesced⟩
      · rw [hr.held_iff p hp, b.held_iff p hp, Set.mem_singleton_iff]
        constructor
        · rintro ⟨⟨h1, h2⟩, h3⟩
          exact ⟨h1, by omega⟩
        · rintro ⟨h1, h2⟩
          exact ⟨⟨h1, by omega⟩, by omega⟩
      · rw [hr.other p (by rw [Set.mem_singleton_iff]; omega), b.untouched p (by omega)]
        unfold FreeHead
        rw [b.untouched p (by omega)]
        exact R.freeHead_boot p
      · rw [hr.pages_eq, b.freePages_eq]
        ext x
        simp only [Set.mem_union, Set.mem_singleton_iff, Set.mem_sep_iff]
        constructor
        · rintro (⟨h1, h2⟩ | rfl)
          · exact ⟨h1, by omega⟩
          · exact ⟨hin, by omega⟩
        · rintro ⟨h1, h2⟩
          by_cases h3 : x = i
          · exact .inr h3
          · exact .inl ⟨h1, by omega⟩
    · have hnin : i ∉ R.set := fun h => hf ((b.held_iff i hi).2 ⟨h, le_rfl⟩)
      refine ⟨s, by simp only [if_neg hf], b.inv, fun p hp => ?_,
        fun p hp => b.untouched p (by omega), b.static_iff, ?_, b.coalesced⟩
      · rw [b.held_iff p hp]
        refine and_congr_right fun h => ?_
        have : p ≠ i := fun e => hnin (e ▸ h)
        omega
      · rw [b.freePages_eq]
        ext x
        simp only [Set.mem_sep_iff]
        refine and_congr_right fun h => ?_
        have : x ≠ i := fun e => hnin (e ▸ h)
        omega

/-- `buddy_module_init` never stops in an `ASSERT`, and hands every free page to the
pools. -/
theorem buddyModuleInit_spec (R : FreeRange c) :
    ∃ s, buddyModuleInit c R.pages = some s ∧ BootInv c R c.pageNums s :=
  initFree_spec R c.pageNums le_rfl

/-! ### The run invariant -/

/-- The allocator and the blocks currently handed out. -/
structure Handed where
  buddy : Buddy
  held : Finset ℕ

/-- One call and its result. -/
inductive Call
  | alloc (order : ℤ) (ret : Option ℕ)
  | free (pgfm : ℕ)

/-- One call of the allocator, on blocks the caller was handed. -/
inductive CallStep (c : Layout) : Handed → Call → Handed → Prop
  | allocSome {x : Handed} {k : ℤ} {p : ℕ} {s : Buddy}
      (h : bkpAlloc c x.buddy k = some (some p, s)) :
      CallStep c x (.alloc k (some p)) ⟨s, insert p x.held⟩
  | allocNone {x : Handed} {k : ℤ} {s : Buddy} (h : bkpAlloc c x.buddy k = some (none, s)) :
      CallStep c x (.alloc k none) ⟨s, x.held⟩
  | free {x : Handed} {p : ℕ} {s : Buddy} (hp : p ∈ x.held)
      (h : bkpFree c x.buddy p = some s) : CallStep c x (.free p) ⟨s, x.held.erase p⟩

/-- The sequential runs after `buddy_module_init`. -/
def buddyRuns (c : Layout) (R : FreeRange c) : System Handed Call where
  init x := buddyModuleInit c R.pages = some x.buddy ∧ x.held = ∅
  step := CallStep c

/-- What holds between calls. -/
structure RunInv (c : Layout) (R : FreeRange c) (x : Handed) : Prop where
  inv : Inv c x.buddy ∅
  held_iff : ∀ p, p ∈ x.held ↔ p < c.pageNums ∧ x.buddy.HeldHead p
  type : ∀ p ∈ x.held, (x.buddy.pages p).pgtype = .buddyAllocator
  static_iff : ∀ p, x.buddy.Static p ↔ p ∉ R.set
  coalesced : Coalesced c x.buddy
  freePages_eq : freePages c x.buddy = R.set \ ⋃ p ∈ x.held, x.buddy.block p

namespace RunInv

variable {R : FreeRange c} {x : Handed}

/-- Every page of the range is free or in exactly one block that is handed out. -/
theorem exists_head (h : RunInv c R x) {q : ℕ} (hq : q < c.pageNums) (hs : q ∈ R.set) :
    ∃ p < c.pageNums, x.buddy.Head p ∧ q ∈ x.buddy.block p := by
  obtain ⟨p, h1, h2⟩ := h.inv.tiles.cover q hq (by
    rintro (e | e)
    · exact (h.static_iff q).1 e hs
    · exact e)
  have hp := Inv.len_pos.1 (by omega : 0 < x.buddy.len c p)
  refine ⟨p, hp.1, hp.2, h1, ?_⟩
  rwa [Inv.len_eq p hp.1 hp.2] at h2

theorem block_sub (h : RunInv c R x) {p : ℕ} (hp : p < c.pageNums) (hh : x.buddy.Head p) :
    x.buddy.block p ⊆ R.set := by
  intro q hq
  by_contra hn
  exact h.inv.not_static_of_block hp hh hq ((h.static_iff q).2 hn)

theorem of_boot {s : Buddy} (b : BootInv c R c.pageNums s) : RunInv c R ⟨s, ∅⟩ where
  inv := b.inv
  held_iff p := by
    refine iff_of_false (by simp) fun ⟨h1, h2⟩ => ?_
    have := ((b.held_iff p h1).1 h2).2
    omega
  type p hp := absurd hp (by simp)
  static_iff := b.static_iff
  coalesced := b.coalesced
  freePages_eq := by
    rw [b.freePages_eq]
    ext q
    simp only [Set.mem_sep_iff, Finset.notMem_empty, Set.iUnion_of_empty, Set.iUnion_empty,
      Set.sdiff_empty, and_iff_left_iff_imp]
    intro hq
    have := R.le
    have := hq.2
    omega

/-- Blocks that are handed out contain no free page. -/
theorem not_free (h : RunInv c R x) {p q : ℕ} (hp : p ∈ x.held) (hq : q ∈ x.buddy.block p) :
    q ∉ freePages c x.buddy := by
  rw [h.freePages_eq]
  rintro ⟨-, hn⟩
  exact hn (Set.mem_iUnion₂.2 ⟨p, hp, hq⟩)

theorem mem_block_self (s : Buddy) (p : ℕ) : p ∈ s.block p :=
  ⟨le_rfl, Nat.lt_add_of_pos_right (Nat.two_pow_pos _)⟩

/-- Blocks that are handed out do not overlap. -/
theorem block_disjoint (h : RunInv c R x) {p q r : ℕ} (hp : p ∈ x.held) (hq : q ∈ x.held)
    (hrp : r ∈ x.buddy.block p) (hrq : r ∈ x.buddy.block q) : p = q := by
  obtain ⟨hp1, hp2⟩ := (h.held_iff p).1 hp
  obtain ⟨hq1, hq2⟩ := (h.held_iff q).1 hq
  exact h.inv.block_unique hp1 (.inl hp2) hq1 (.inl hq2) hrp hrq

/-- An allocation touches no page of a block that is handed out. -/
theorem alloc_other (h : RunInv c R x) {s : Buddy} {k p q r : ℕ}
    (a : Allocated c x.buddy s k p) (hq : q ∈ x.held) (hr : r ∈ x.buddy.block q) :
    s.pages r = x.buddy.pages r := by
  obtain ⟨hq1, hq2⟩ := (h.held_iff q).1 hq
  have hle := h.inv.block_le hq1 (.inl hq2)
  exact a.other r (h.not_free hq hr) (lt_of_lt_of_le hr.2 hle)

/-- A release touches no page of another block that is handed out. -/
theorem free_other (h : RunInv c R x) {s : Buddy} {p q r : ℕ} (hp : p ∈ x.held)
    (a : Released c x.buddy s (x.buddy.block p)) (hq : q ∈ x.held) (hqp : q ≠ p)
    (hr : r ∈ x.buddy.block q) : s.pages r = x.buddy.pages r := by
  refine a.other r (fun hrp => hqp (h.block_disjoint hq hp hr hrp)) fun hf => ?_
  obtain ⟨hq1, hq2⟩ := (h.held_iff q).1 hq
  have hle := h.inv.block_le hq1 (.inl hq2)
  have hrn : r < c.pageNums := lt_of_lt_of_le hr.2 hle
  have := h.inv.block_unique hrn (.inr hf) hq1 (.inl hq2) (mem_block_self _ r) hr
  exact hf.not_held (this ▸ hq2)

theorem allocated (h : RunInv c R x) {s : Buddy} {k p : ℕ} (hinv : Inv c s ∅)
    (a : Allocated c x.buddy s k p) : RunInv c R ⟨s, insert p x.held⟩ := by
  have hblock : ∀ q ∈ x.held, s.block q = x.buddy.block q := by
    intro q hq
    unfold block Buddy.order
    rw [h.alloc_other a hq (mem_block_self _ q)]
  have hblockp : s.block p = Set.Ico p (p + 2 ^ k) := by rw [block, a.order']
  refine ⟨hinv, fun q => ?_, fun q hq => ?_, fun q => (a.static_iff q).trans (h.static_iff q),
    a.coalesced h.coalesced, ?_⟩
  · rw [Finset.mem_insert, h.held_iff]
    constructor
    · rintro (rfl | ⟨h1, h2⟩)
      · exact ⟨a.lt, a.held'⟩
      · exact ⟨h1, (a.held_iff q h1).2 (.inl h2)⟩
    · rintro ⟨h1, h2⟩
      rcases (a.held_iff q h1).1 h2 with h3 | h3
      · exact .inr ⟨h1, h3⟩
      · exact .inl h3
  · rcases Finset.mem_insert.1 hq with rfl | hq
    · exact a.type'
    · dsimp only
      rw [h.alloc_other a hq (mem_block_self _ q)]
      exact h.type q hq
  · dsimp only
    rw [a.pages_eq, h.freePages_eq, Finset.set_biUnion_insert, hblockp,
      Set.iUnion₂_congr hblock]
    ext q
    simp only [Set.mem_sdiff, Set.mem_union, not_or]
    tauto

theorem released (h : RunInv c R x) {s : Buddy} {p : ℕ} (hp : p ∈ x.held) (hinv : Inv c s ∅)
    (a : Released c x.buddy s (x.buddy.block p)) : RunInv c R ⟨s, x.held.erase p⟩ := by
  have hsame : ∀ q ∈ x.held.erase p, s.pages q = x.buddy.pages q := by
    intro q hq
    obtain ⟨h1, h2⟩ := Finset.mem_erase.1 hq
    exact h.free_other hp a h2 h1 (mem_block_self _ q)
  have hblock : ∀ q ∈ x.held.erase p, s.block q = x.buddy.block q := by
    intro q hq
    unfold block Buddy.order
    rw [hsame q hq]
  obtain ⟨hp1, hp2⟩ := (h.held_iff p).1 hp
  refine ⟨hinv, fun q => ?_, fun q hq => ?_, fun q => (a.static_iff q).trans (h.static_iff q),
    a.coalesced h.coalesced, ?_⟩
  · rw [Finset.mem_erase, h.held_iff]
    constructor
    · rintro ⟨h1, h2, h3⟩
      refine ⟨h2, (a.held_iff q h2).2 ⟨h3, fun hin => h1 ?_⟩⟩
      exact h.inv.block_unique h2 (.inl h3) hp1 (.inl hp2) (mem_block_self _ q) hin
    · rintro ⟨h1, h2⟩
      obtain ⟨h3, h4⟩ := (a.held_iff q h1).1 h2
      exact ⟨by rintro rfl; exact h4 (mem_block_self _ q), h1, h3⟩
  · dsimp only
    rw [hsame q hq]
    exact h.type q (Finset.mem_of_mem_erase hq)
  · dsimp only
    rw [a.pages_eq, h.freePages_eq, Set.iUnion₂_congr hblock]
    have hsub := h.block_sub hp1 (.inl hp2)
    have hdisj := fun q r (hq : q ∈ x.held.erase p) => h.block_disjoint (r := r)
      (Finset.mem_of_mem_erase hq) hp
    ext q
    simp only [Set.mem_sdiff, Set.mem_union, Set.mem_iUnion₂]
    constructor
    · rintro (⟨h1, h2⟩ | h1)
      · exact ⟨h1, fun ⟨r, hr, hq⟩ => h2 ⟨r, Finset.mem_of_mem_erase hr, hq⟩⟩
      · refine ⟨hsub h1, fun ⟨r, hr, hq⟩ => ?_⟩
        exact (Finset.mem_erase.1 hr).1 (hdisj r q hr hq h1)
    · rintro ⟨h1, h2⟩
      by_cases h3 : q ∈ x.buddy.block p
      · exact .inr h3
      · refine .inl ⟨h1, fun ⟨r, hr, hq⟩ => h2 ⟨r, ?_, hq⟩⟩
        exact Finset.mem_erase.2 ⟨by rintro rfl; exact h3 hq, hr⟩

/-- Both answers of an allocation, from the state before it. -/
theorem alloc_cases (h : RunInv c R x) (k : ℤ) :
    ((¬ (0 ≤ k ∧ k < c.maxOrder) ∨
        ∀ j : ℕ, k ≤ j → j < c.maxOrder → (x.buddy.orderPools j).list = []) ∧
      bkpAlloc c x.buddy k = some (none, x.buddy)) ∨
    ((0 ≤ k ∧ k < c.maxOrder) ∧
      (∃ j : ℕ, k ≤ j ∧ j < c.maxOrder ∧ (x.buddy.orderPools j).list ≠ []) ∧
      ∃ p s, bkpAlloc c x.buddy k = some (some p, s) ∧ Inv c s ∅ ∧
        Allocated c x.buddy s k.toNat p) := by
  by_cases hk : ¬ (0 ≤ k ∧ k < c.maxOrder) ∨
      ∀ j : ℕ, k ≤ j → j < c.maxOrder → (x.buddy.orderPools j).list = []
  · exact .inl ⟨hk, bkpAlloc_none h.inv hk⟩
  · right
    push Not at hk
    exact ⟨hk.1, hk.2, bkpAlloc_some h.inv hk.1 hk.2⟩

theorem free_spec (h : RunInv c R x) {p : ℕ} (hp : p ∈ x.held) :
    ∃ s, bkpFree c x.buddy p = some s ∧ Inv c s ∅ ∧
      Released c x.buddy s (x.buddy.block p) := by
  obtain ⟨h1, h2⟩ := (h.held_iff p).1 hp
  exact bkpFree_spec h.inv h1 h2 (h.type p hp)

/-- One call keeps the run invariant. -/
theorem step (h : RunInv c R x) {a : Call} {y : Handed} (hs : CallStep c x a y) :
    RunInv c R y := by
  cases hs with
  | @allocSome k p s he =>
    rcases h.alloc_cases k with ⟨-, hn⟩ | ⟨-, -, p', s', hp, hinv, ha⟩
    · rw [hn] at he
      cases he
    · rw [hp] at he
      cases he
      exact h.allocated hinv ha
  | @allocNone k s he =>
    rcases h.alloc_cases k with ⟨-, hn⟩ | ⟨-, -, p', s', hp, -, -⟩
    · rw [hn] at he
      cases he
      exact h
    · rw [hp] at he
      cases he
  | @free p s hp he =>
    obtain ⟨s', hf, hinv, hr⟩ := h.free_spec hp
    rw [hf] at he
    cases he
    exact h.released hp hinv hr

end RunInv

/-- The run invariant holds in every state the allocator reaches. -/
theorem runInv_of_reachable {R : FreeRange c} {x : Handed} (h : (buddyRuns c R).Reachable x) :
    RunInv c R x := by
  refine h.invariant (fun x hx => ?_) fun x a y _ hx hs => hx.step hs
  obtain ⟨s, held⟩ := x
  obtain ⟨hboot, rfl⟩ := hx
  obtain ⟨s', hs', b⟩ := buddyModuleInit_spec R
  rw [hs'] at hboot
  cases hboot
  exact .of_boot b

/-! ### Running a list of calls -/

namespace Handed

/-- Make one call; `none` when an `ASSERT` fails, the answer is not the one in the
label, or the block to free is not handed out. -/
def exec (c : Layout) (x : Handed) : Call → Option Handed
  | .alloc order ret =>
    match bkpAlloc c x.buddy order, ret with
    | some (some p, s), some q => if p = q then some ⟨s, insert p x.held⟩ else none
    | some (none, s), none => some ⟨s, x.held⟩
    | _, _ => none
  | .free pgfm =>
    match bkpFree c x.buddy pgfm with
    | some s => if pgfm ∈ x.held then some ⟨s, x.held.erase pgfm⟩ else none
    | none => none

theorem exec_step {x y : Handed} {a : Call} (h : x.exec c a = some y) : CallStep c x a y := by
  unfold exec at h
  split at h
  · split at h
    · split_ifs at h with hpq
      cases h
      subst hpq
      exact .allocSome ‹_›
    · cases h
      exact .allocNone ‹_›
    · cases h
  · split at h
    · split_ifs at h with hp
      cases h
      exact .free hp ‹_›
    · cases h

end Handed

/-- Boot, then make the calls of a list in order. -/
def bootAndRun (c : Layout) (R : FreeRange c) (as : List Call) : Option Handed :=
  match buddyModuleInit c R.pages with
  | some s => System.execAll (Handed.exec c) as ⟨s, ∅⟩
  | none => none

theorem reachable_bootAndRun {R : FreeRange c} {as : List Call} {x : Handed}
    (h : bootAndRun c R as = some x) : (buddyRuns c R).Reachable x := by
  unfold bootAndRun at h
  split at h
  · rename_i s hs
    have h0 : (buddyRuns c R).Reachable ⟨s, ∅⟩ := .of_init ⟨hs, rfl⟩
    exact h0.run (.of_execAll (fun _ _ _ => Handed.exec_step) h)
  · cases h

theorem ofPages_vaEnd {n : ℕ} (hn : n < 2 ^ 31) : 2 ^ 31 + n * pageSize < 2 ^ 64 := by
  simp only [pageSize, pageOffset]
  omega

/-- A machine with `n` free pages and orders below `m`. -/
def Layout.ofPages (m n : ℕ) (hm : 1 ≤ m ∧ m ≤ 31) (hn : n < 2 ^ 31) : Layout where
  maxOrder := m
  paStart := 2 ^ 31
  vaStart := 2 ^ 31
  pageNums := n
  maxOrder_pos := hm.1
  maxOrder_le := hm.2
  paStart_le := Nat.le_refl _
  paStart_aligned := rfl
  vaStart_aligned := rfl
  pageNums_lt := hn
  vaEnd_lt := ofPages_vaEnd hn

/-- All pages of the array are free at boot. -/
def FreeRange.all (c : Layout) : FreeRange c := ⟨0, c.pageNums, by omega⟩

/-! ### The representation -/

/-- The pages that are not `STATIC` are partitioned into blocks: one head of an order
below `MAX_ORDER`, then body pages of order `MAX_ORDER`. -/
structure Partitioned (c : Layout) (s : Buddy) : Prop where
  cover : ∀ q < c.pageNums, ¬ s.Static q → ∃! p, p < c.pageNums ∧ s.Head p ∧ q ∈ s.block p
  fits : ∀ p < c.pageNums, s.Head p → s.order p < c.maxOrder ∧ p + 2 ^ s.order p ≤ c.pageNums
  body : ∀ p < c.pageNums, s.Head p → ∀ q, p < q → q < p + 2 ^ s.order p → s.Body c q

/-- The pools link exactly the free heads, each once and in the pool of its order, and
count them. -/
structure Linked (c : Layout) (s : Buddy) : Prop where
  free_iff : ∀ p < c.pageNums, s.Head p → ((s.pages p).buddyFlags &&& flagFree ≠ 0 ↔
    (s.orderPools (s.order p)).list.count p = 1)
  mem : ∀ k < c.maxOrder, ∀ p ∈ (s.orderPools k).list,
    p < c.pageNums ∧ s.Head p ∧ s.order p = k
  nodup : ∀ k < c.maxOrder, (s.orderPools k).list.Nodup
  count : ∀ k < c.maxOrder, (s.orderPools k).restBlockNum = (s.orderPools k).list.length

/-- No `ASSERT` fails in the next call. -/
structure Asserts (c : Layout) (x : Handed) : Prop where
  alloc : ∀ k, ∃ r, bkpAlloc c x.buddy k = some r
  free : ∀ p ∈ x.held, ∃ s, bkpFree c x.buddy p = some s

namespace RunInv

variable {R : FreeRange c} {x : Handed}

theorem partitioned (h : RunInv c R x) : Partitioned c x.buddy where
  cover q hq hs := by
    have hin : q ∈ R.set := by
      by_contra hn
      exact hs ((h.static_iff q).2 hn)
    obtain ⟨p, hp, hh, hb⟩ := h.exists_head hq hin
    exact ⟨p, ⟨hp, hh, hb⟩, fun r ⟨hr, hhr, hbr⟩ => h.inv.block_unique hr hhr hp hh hbr hb⟩
  fits p hp hh := ⟨h.inv.order_lt p hp hh, h.inv.block_le hp hh⟩
  body p hp hh q hpq hq := (h.inv.body hp hh hpq ⟨hpq.le, hq⟩).2.1

theorem linked (h : RunInv c R x) : Linked c x.buddy where
  free_iff p hp hh := by
    have hk := h.inv.order_lt p hp hh
    have hmem : p ∈ (x.buddy.orderPools (x.buddy.order p)).list ↔ x.buddy.FreeHead p := by
      rw [h.inv.mem_list _ hk p]
      tauto
    have hcount : (x.buddy.orderPools (x.buddy.order p)).list.count p = 1 ↔
        x.buddy.FreeHead p := by
      rw [← hmem]
      constructor
      · intro e
        exact List.count_pos_iff.1 (by omega)
      · exact List.count_eq_one_of_mem (h.inv.nodup _ hk)
    rw [hcount]
    rcases hh with hh | hh
    · refine iff_of_false ?_ fun e => e.not_held hh
      rw [show (x.buddy.pages p).buddyFlags = flagHead from hh]
      decide
    · refine iff_of_true ?_ hh
      rw [show (x.buddy.pages p).buddyFlags = flagHead ||| flagFree from hh]
      decide
  mem k hk p hp := by
    obtain ⟨h1, h2, h3⟩ := (h.inv.mem_list k hk p).1 hp
    exact ⟨h1, .inr h2, h3⟩
  nodup := h.inv.nodup
  count := h.inv.count

theorem asserts (h : RunInv c R x) : Asserts c x where
  alloc k := by
    rcases h.alloc_cases k with ⟨-, hn⟩ | ⟨-, -, p, s, hp, -⟩
    · exact ⟨_, hn⟩
    · exact ⟨_, hp⟩
  free p hp := by
    obtain ⟨s, hs, -⟩ := h.free_spec hp
    exact ⟨s, hs⟩

/-- The block sizes that survive the conversion to `int`. -/
theorem blockSize_iff {k : ℕ} (hk : k ≤ 30) :
    toInt32 (Layout.order2byte k) % 2 ^ 64 = ((1 <<< k * pageSize : ℕ) : ℤ) % 2 ^ 64 ↔
      k ≤ 18 := by
  revert k
  decide

/-- The self check compares each block size with one that went through an `int`, so it
fails as soon as there is a pool whose blocks have `2 ^ 31` bytes. -/
theorem slfcheck_iff (h : RunInv c R x) :
    buddySlfcheck c x.buddy = 0 ↔ c.maxOrder ≤ 19 := by
  have hmax := c.maxOrder_le
  have hpool : ∀ k < c.maxOrder, (poolCheck x.buddy k = true ↔ k ≤ 18) := by
    intro k hk
    have hord : ∀ p ∈ (x.buddy.orderPools k).list, (x.buddy.pages p).buddyOrder = k :=
      fun p hp => ((h.inv.mem_list k hk p).1 hp).2.2
    rw [← blockSize_iff (by omega : k ≤ 30), ← h.inv.size k hk]
    simp only [poolCheck, h.inv.count k hk, decide_eq_true_eq, true_and]
    exact and_iff_left hord
  unfold buddySlfcheck
  constructor
  · intro h0
    split_ifs at h0 with hall
    · by_contra hlt
      have := (hpool 19 (by omega)).1 (hall 19 (by omega))
      omega
    · exact absurd h0 (by decide)
  · intro hle
    exact if_pos fun k hk => (hpool k hk).2 (by omega)

end RunInv

/-- What the allocator promises of its representation in every sequential run. -/
structure Represents (c : Layout) (R : FreeRange c) : Prop where
  boots : ∃ s, buddyModuleInit c R.pages = some s
  partitioned : ∀ x, (buddyRuns c R).Reachable x → Partitioned c x.buddy
  linked : ∀ x, (buddyRuns c R).Reachable x → Linked c x.buddy
  asserts : ∀ x, (buddyRuns c R).Reachable x → Asserts c x
  slfcheck : ∀ x, (buddyRuns c R).Reachable x → buddySlfcheck c x.buddy = 0

/-- The representation invariant holds in every run, but `buddy_slfcheck` accepts it
only when the largest block is shorter than `2 ^ 31` bytes: `block_size` is an `int`. -/
theorem represents_iff (R : FreeRange c) :
    ((∃ s, buddyModuleInit c R.pages = some s) ∧
      ∀ x, (buddyRuns c R).Reachable x →
        Partitioned c x.buddy ∧ Linked c x.buddy ∧ Asserts c x) ∧
    (Represents c R ↔ c.maxOrder ≤ 19) := by
  obtain ⟨s, hs, b⟩ := buddyModuleInit_spec R
  refine ⟨⟨⟨s, hs⟩, fun x hx => ?_⟩, fun h => ?_, fun hle => ?_⟩
  · have hinv := runInv_of_reachable hx
    exact ⟨hinv.partitioned, hinv.linked, hinv.asserts⟩
  · -- the self check of the state after boot
    have hx : (buddyRuns c R).Reachable ⟨s, ∅⟩ := .of_init ⟨hs, rfl⟩
    exact (runInv_of_reachable hx).slfcheck_iff.1 (h.slfcheck _ hx)
  · exact ⟨⟨s, hs⟩, fun x hx => (runInv_of_reachable hx).partitioned,
      fun x hx => (runInv_of_reachable hx).linked, fun x hx => (runInv_of_reachable hx).asserts,
      fun x hx => (runInv_of_reachable hx).slfcheck_iff.2 hle⟩

/-- With twenty orders the self check already fails right after boot. -/
theorem not_represents_twenty :
    let c := Layout.ofPages 20 1 (by decide) (by decide)
    (∃ s, buddyModuleInit c (FreeRange.all c).pages = some s ∧
      buddySlfcheck c s = -efault) ∧ ¬ Represents c (FreeRange.all c) := by
  intro c
  obtain ⟨s, hs, -⟩ := buddyModuleInit_spec (FreeRange.all c)
  have hx : (buddyRuns c (FreeRange.all c)).Reachable ⟨s, ∅⟩ := .of_init ⟨hs, rfl⟩
  have hne : buddySlfcheck c s ≠ 0 := by
    intro h0
    exact absurd ((runInv_of_reachable hx).slfcheck_iff.1 h0) (by decide)
  refine ⟨⟨s, hs, ?_⟩, fun h => hne (h.slfcheck _ hx)⟩
  unfold buddySlfcheck at hne ⊢
  split_ifs at hne ⊢ with hall
  · exact absurd rfl hne
  · rfl

/-! ### The allocator over a set of pages -/

/-- `bkp_alloc` and `bkp_free`, as an allocator of runs of `2 ^ k` consecutive pages out
of a set of free pages.  The only trace of the pools is when `NULL` is returned. -/
theorem buddy_refines_pages (R : FreeRange c) :
    ∀ x, (buddyRuns c R).Reachable x →
      (∀ k : ℤ, (¬ (0 ≤ k ∧ k < c.maxOrder) ∨
          ∀ j : ℕ, k ≤ j → j < c.maxOrder → (x.buddy.orderPools j).list = []) →
        bkpAlloc c x.buddy k = some (none, x.buddy)) ∧
      (∀ k : ℕ, k < c.maxOrder →
        (∃ j, k ≤ j ∧ j < c.maxOrder ∧ (x.buddy.orderPools j).list ≠ []) →
        ∃ p s, bkpAlloc c x.buddy k = some (some p, s) ∧
          Set.Ico p (p + 2 ^ k) ⊆ freePages c x.buddy ∧
          freePages c s = freePages c x.buddy \ Set.Ico p (p + 2 ^ k) ∧
          s.HeldHead p ∧ s.order p = k ∧
          ∀ q ∈ x.held, ∀ r ∈ x.buddy.block q, s.pages r = x.buddy.pages r) ∧
      ∀ p ∈ x.held, ∃ s, bkpFree c x.buddy p = some s ∧
        freePages c s = freePages c x.buddy ∪ Set.Ico p (p + 2 ^ x.buddy.order p) ∧
        Disjoint (freePages c x.buddy) (Set.Ico p (p + 2 ^ x.buddy.order p)) ∧
        ∀ q ∈ x.held, q ≠ p → ∀ r ∈ x.buddy.block q, s.pages r = x.buddy.pages r := by
  intro x hx
  have h := runInv_of_reachable hx
  refine ⟨fun k hk => bkpAlloc_none h.inv hk, fun k hk hex => ?_, fun p hp => ?_⟩
  · -- a pool from the order up has a block
    obtain ⟨j, h1, h2, h3⟩ := hex
    obtain ⟨p, s, ha, -, a⟩ := bkpAlloc_some (k := k) h.inv ⟨by omega, by omega⟩
      ⟨j, by omega, h2, h3⟩
    rw [Int.toNat_natCast] at a
    exact ⟨p, s, ha, a.sub, a.pages_eq, a.held', a.order', fun q hq r hr => h.alloc_other a hq hr⟩
  · -- a block that is held is given back
    obtain ⟨s, hs, -, a⟩ := h.free_spec hp
    refine ⟨s, hs, a.pages_eq, ?_, fun q hq hqp r hr => h.free_other hp a hq hqp hr⟩
    rw [Set.disjoint_right]
    exact fun r hr => h.not_free hp hr

/-- Four pages, after the first allocation of a single page: a block of two pages can be
allocated next, and the single page freed. -/
theorem buddy_refines_four_pages :
    let c := Layout.ofPages 3 4 (by decide) (by decide)
    ∃ x, bootAndRun c (FreeRange.all c) [.alloc 0 (some 0)] = some x ∧
      (∃ p s, bkpAlloc c x.buddy 1 = some (some p, s) ∧
        freePages c s = freePages c x.buddy \ Set.Ico p (p + 2 ^ 1)) ∧
      ∃ s, bkpFree c x.buddy 0 = some s ∧
        freePages c s = freePages c x.buddy ∪ Set.Ico 0 (0 + 2 ^ x.buddy.order 0) := by
  intro c
  have hrun : (bootAndRun c (FreeRange.all c) [.alloc 0 (some 0)]).map
      (fun x => (x.held, (x.buddy.orderPools 1).list)) = some ({0}, [1]) := by decide
  obtain ⟨x, hx, hv⟩ := Option.map_eq_some_iff.1 hrun
  obtain ⟨hheld, hpool⟩ := Prod.mk.inj hv
  obtain ⟨-, halloc, hfree⟩ := buddy_refines_pages _ x (reachable_bootAndRun hx)
  obtain ⟨p, s, h1, -, h2, -⟩ := halloc 1 (by decide) ⟨1, le_rfl, by decide, by simp [hpool]⟩
  obtain ⟨s', h3, h4, -⟩ := hfree 0 (by simp [hheld])
  exact ⟨x, hx, ⟨p, s, h1, h2⟩, s', h3, h4⟩

/-! ### Coalescing -/

/-- Between sequential calls no two adjacent free blocks below the top order have the
same order. -/
theorem coalescing_complete {R : FreeRange c} {x : Handed} (h : (buddyRuns c R).Reachable x) :
    ∀ k, k + 1 < c.maxOrder → ∀ p ∈ (x.buddy.orderPools k).list,
      ∀ q ∈ (x.buddy.orderPools k).list, p + 2 ^ k ≠ q :=
  (runInv_of_reachable h).coalesced

/-- Four pages, after the first allocation of a single page: pages `1` and `2` are one
block and page `3` another. -/
theorem coalescing_complete_four_pages :
    let c := Layout.ofPages 3 4 (by decide) (by decide)
    ∃ x, bootAndRun c (FreeRange.all c) [.alloc 0 (some 0)] = some x ∧
      (x.buddy.orderPools 0).list = [3] ∧ (x.buddy.orderPools 1).list = [1] ∧
      ∀ k, k + 1 < c.maxOrder → ∀ p ∈ (x.buddy.orderPools k).list,
        ∀ q ∈ (x.buddy.orderPools k).list, p + 2 ^ k ≠ q := by
  intro c
  have hpools : (bootAndRun c (FreeRange.all c) [.alloc 0 (some 0)]).map
      (fun x => ((x.buddy.orderPools 0).list, (x.buddy.orderPools 1).list)) =
        some ([3], [1]) := by decide
  obtain ⟨x, hx, hl⟩ := Option.map_eq_some_iff.1 hpools
  obtain ⟨h0, h1⟩ := Prod.mk.inj hl
  exact ⟨x, hx, h0, h1, coalescing_complete (reachable_bootAndRun hx)⟩

end AcoOs
