/-
The sequential calls `bkp_free` and `bkp_alloc`, from their sections.

* `bkpFree_spec`: freeing a held block never stops in an `ASSERT`, keeps the
  invariant, adds the pages of the block to the free pages, and rewrites no
  descriptor outside the block but those of free heads;
* `bkpAlloc_none`, `bkpAlloc_some`: an allocation answers `NULL` exactly when no
  pool from the requested order up has a block, and otherwise takes `2 ^ k` free
  pages and gives the remainder of the block back, piece by piece;
* both keep the free blocks coalesced.
-/
import AcoOs.BuddyInvariant

namespace AcoOs

open Tiling Buddy

variable {c : Layout}

/-- The pages of the blocks linked in the pools. -/
def freePages (c : Layout) (s : Buddy) : Set ℕ :=
  {x | ∃ k < c.maxOrder, ∃ p ∈ (s.orderPools k).list, x ∈ Set.Ico p (p + 2 ^ k)}

/-- No two free blocks of one order below the top are adjacent. -/
def Coalesced (c : Layout) (s : Buddy) : Prop :=
  ∀ k, k + 1 < c.maxOrder → ∀ p ∈ (s.orderPools k).list, ∀ q ∈ (s.orderPools k).list,
    p + 2 ^ k ≠ q

namespace Inv

variable {s : Buddy} {raw : Set ℕ}

theorem mem_freePages (h : Inv c s raw) {x : ℕ} :
    x ∈ freePages c s ↔ ∃ p < c.pageNums, s.FreeHead p ∧ x ∈ s.block p := by
  constructor
  · rintro ⟨k, hk, p, hp, hx⟩
    obtain ⟨hlt, hfree, hord⟩ := (h.mem_list k hk p).1 hp
    exact ⟨p, hlt, hfree, by rwa [block, hord]⟩
  · rintro ⟨p, hp, hfree, hx⟩
    have hk := h.order_lt p hp (.inr hfree)
    exact ⟨s.order p, hk, p, (h.mem_list _ hk p).2 ⟨hp, hfree, rfl⟩, hx⟩

theorem coalesced_iff (h : Inv c s raw) :
    Coalesced c s ↔ ∀ p < c.pageNums, s.FreeHead p → s.order p + 1 < c.maxOrder →
      NoNeighbour c s (s.order p) p := by
  constructor
  · intro hc p hp hfree hk r hr hfr hord
    have hin := (h.mem_list (s.order p) (by omega) p).2 ⟨hp, hfree, rfl⟩
    have hinr := (h.mem_list (s.order p) (by omega) r).2 ⟨hr, hfr, hord⟩
    exact ⟨hc _ hk r hinr p hin, hc _ hk p hin r hinr⟩
  · intro hn k hk p hp q hq
    obtain ⟨hlt, hfree, rfl⟩ := (h.mem_list k (by omega) p).1 hp
    obtain ⟨hltq, hfreeq, hordq⟩ := (h.mem_list _ (by omega) q).1 hq
    exact (hn p hlt hfree hk q hltq hfreeq hordq).2

end Inv

/-! ### The merge loop -/

/-- What merging does to a held block: it is now the block `q`, the pages of the
two together with the free pages stay the same, and only the block itself and
free heads are rewritten. -/
structure Moved (c : Layout) (s s' : Buddy) (p q : ℕ) : Prop where
  lt : q < c.pageNums
  held' : s'.HeldHead q
  type' : (s'.pages q).pgtype = .buddyAllocator
  origin : q = p ∨ s.FreeHead q
  free_sub : ∀ r, s'.FreeHead r → s.FreeHead r ∧ s'.pages r = s.pages r
  other : ∀ r, r ≠ p → ¬ s.FreeHead r → s'.pages r = s.pages r
  held_sub : ∀ r, s'.HeldHead r → r = q ∨ s.HeldHead r ∧ r ≠ p
  static_iff : ∀ r, s'.Static r ↔ s.Static r
  pages_eq : freePages c s' ∪ s'.block q = freePages c s ∪ s.block p

theorem Moved.refl {s : Buddy} {p : ℕ} (hp : p < c.pageNums) (hheld : s.HeldHead p)
    (htype : (s.pages p).pgtype = .buddyAllocator) : Moved c s s p p where
  lt := hp
  held' := hheld
  type' := htype
  origin := .inl rfl
  free_sub := fun _ h => ⟨h, rfl⟩
  other := fun _ _ _ => rfl
  held_sub := fun r h => by
    by_cases hr : r = p
    · exact .inl hr
    · exact .inr ⟨h, hr⟩
  static_iff := fun _ => Iff.rfl
  pages_eq := rfl

theorem Moved.trans {s s' s'' : Buddy} {p q r : ℕ} (h : Moved c s s' p q)
    (h' : Moved c s' s'' q r) : Moved c s s'' p r where
  lt := h'.lt
  held' := h'.held'
  type' := h'.type'
  origin := by
    rcases h'.origin with rfl | hf
    · exact h.origin
    · exact .inr (h.free_sub r hf).1
  free_sub := fun x hx => by
    obtain ⟨h1, h2⟩ := h'.free_sub x hx
    obtain ⟨h3, h4⟩ := h.free_sub x h1
    exact ⟨h3, h2.trans h4⟩
  other := fun x hx hf => by
    have hq : x ≠ q := by
      rintro rfl
      rcases h.origin with e | e
      · exact hx e
      · exact hf e
    rw [h'.other x hq fun e => hf (h.free_sub x e).1, h.other x hx hf]
  held_sub := fun x hx => by
    rcases h'.held_sub x hx with rfl | ⟨h1, h2⟩
    · exact .inl rfl
    · rcases h.held_sub x h1 with e | e
      · exact absurd e h2
      · exact .inr e
  static_iff := fun x => (h'.static_iff x).trans (h.static_iff x)
  pages_eq := h'.pages_eq.trans h.pages_eq

theorem Merged.moved {s s' : Buddy} {raw : Set ℕ} {k p q : ℕ} (m : Merged c s s' k p q)
    (h : Inv c s raw) (htype : (s.pages p).pgtype = .buddyAllocator) :
    Moved c s s' p q ∧ Inv c s' raw ∧ s'.order q = k + 1 := by
  obtain ⟨lo, hi, linked, j, rfl, hne, hp, rfl⟩ := m.exists_join
  have hinv := j.inv h
  have hlolt := j.lo_lt.trans j.hi_lt
  have hcases : linked = q ∧ p = hi ∨ linked = hi ∧ p = q := by
    rcases j.linked_mem with ⟨h1, -⟩ | ⟨h1, -⟩ <;> rcases hp with h2 | h2
    · exact absurd (h1.trans h2.symm) hne
    · exact .inl ⟨h1, h2⟩
    · exact .inr ⟨h1, h2⟩
    · exact absurd (h1.trans h2.symm) hne
  have hlinked : linked < c.pageNums := by
    rcases hcases with ⟨h1, -⟩ | ⟨h1, -⟩ <;> rw [h1]
    exacts [hlolt, j.hi_lt]
  -- a page that is neither `p` nor the linked block is neither of the two joined blocks
  have hmem : ∀ r, r ≠ p → r ≠ linked → r ≠ q ∧ r ≠ hi := by
    intro r h1 h2
    rcases hcases with ⟨e1, e2⟩ | ⟨e1, e2⟩
    · exact ⟨e1 ▸ h2, e2 ▸ h1⟩
    · exact ⟨e2 ▸ h1, e1 ▸ h2⟩
  have hpheld : s.HeldHead p := by
    rcases j.linked_mem with ⟨e, hh⟩ | ⟨e, hh⟩ <;> rcases hcases with ⟨e1, e2⟩ | ⟨e1, e2⟩
    · rwa [e2]
    · exact absurd (e.symm.trans e1) j.hi_ne.symm
    · exact absurd (e.symm.trans e1) j.hi_ne
    · rwa [e2]
  have hblock : (joinBlocks c s k q hi linked).block q = s.block p ∪ s.block linked := by
    have hpow : 2 ^ (k + 1) = 2 ^ k + 2 ^ k := by ring
    have heq := j.hi_eq
    unfold block
    rcases hcases with ⟨e1, e2⟩ | ⟨e1, e2⟩ <;>
    · rw [j.order_lo', e1, e2, j.order_lo, j.order_hi, hpow]
      ext x
      simp only [Set.mem_Ico, Set.mem_union]
      omega
  refine ⟨⟨hlolt, j.held_lo, ?_, ?_, ?_, ?_, ?_, j.static_iff, ?_⟩, hinv, j.order_lo'⟩
  · rw [j.pages_eq, if_pos rfl]
    rcases hcases with ⟨e1, e2⟩ | ⟨e1, e2⟩
    · exact h.pgtype q hlolt (FreeHead.not_held (e1 ▸ j.linked_free))
    · rw [← e2]
      exact htype
  · rcases hcases with ⟨e1, -⟩ | ⟨-, e2⟩
    · exact .inr (e1 ▸ j.linked_free)
    · exact .inl e2.symm
  · intro r hr
    obtain ⟨h1, h2⟩ := (j.freeHead_iff r).1 hr
    obtain ⟨h3, h4⟩ := hmem r (fun e => h1.not_held (e ▸ hpheld)) h2
    exact ⟨h1, j.pages_other h3 h4⟩
  · intro r h1 h2
    obtain ⟨h3, h4⟩ := hmem r h1 fun e => h2 (e ▸ j.linked_free)
    exact j.pages_other h3 h4
  · intro r hr
    by_cases h1 : r = q
    · exact .inl h1
    · right
      have h2 : r ≠ hi := by
        rintro rfl
        exact Head.not_body (.inl hr) j.body_hi
      unfold HeldHead at hr
      rw [j.pages_other h1 h2] at hr
      refine ⟨hr, ?_⟩
      rcases hcases with ⟨-, e2⟩ | ⟨-, e2⟩ <;> rw [e2] <;> assumption
  · ext x
    simp only [Set.mem_union, hinv.mem_freePages, h.mem_freePages, hblock]
    have hb : ∀ r, (joinBlocks c s k q hi linked).FreeHead r →
        (joinBlocks c s k q hi linked).block r = s.block r := by
      intro r hr
      obtain ⟨h1, h2⟩ := (j.freeHead_iff r).1 hr
      obtain ⟨h3, h4⟩ := hmem r (fun e => h1.not_held (e ▸ hpheld)) h2
      unfold block Buddy.order
      rw [j.pages_other h3 h4]
    constructor
    · rintro (⟨r, hr, hf, hx⟩ | hx | hx)
      · exact .inl ⟨r, hr, ((j.freeHead_iff r).1 hf).1, hb r hf ▸ hx⟩
      · exact .inr hx
      · exact .inl ⟨linked, hlinked, j.linked_free, hx⟩
    · rintro (⟨r, hr, hf, hx⟩ | hx)
      · by_cases hrl : r = linked
        · exact .inr (.inr (hrl ▸ hx))
        · have hf' := (j.freeHead_iff r).2 ⟨hf, hrl⟩
          exact .inl ⟨r, hr, hf', by rwa [hb r hf']⟩
      · exact .inr (.inl hx)

/-- The merge loop ends with a held block that has no free neighbour of its order,
or is of the largest order. -/
theorem bkpFreeLoop_spec {raw : Set ℕ} : ∀ (n : ℕ) {s : Buddy} {p k : ℕ}, Inv c s raw →
    p < c.pageNums → s.HeldHead p → (s.pages p).pgtype = .buddyAllocator → s.order p = k →
    n + k + 1 = c.maxOrder →
    ∃ q k' s', bkpFreeLoop c n s p k = some (q, k', s') ∧ Inv c s' raw ∧ Moved c s s' p q ∧
      s'.order q = k' ∧ (k' + 1 < c.maxOrder → NoNeighbour c s' k' q) := by
  intro n
  induction n with
  | zero =>
    intro s p k h hp hheld htype hord hk
    exact ⟨p, k, s, rfl, h, .refl hp hheld htype, hord, fun hlt => by omega⟩
  | succ n ih =>
    intro s p k h hp hheld htype hord hk
    rcases merge_spec h hp hheld htype hord (by omega) with ⟨q, s', hm, hmerged⟩ | ⟨hm, hno⟩
    · obtain ⟨hmoved, hinv, hordq⟩ := hmerged.moved h htype
      obtain ⟨q', k', s'', hl, hinv', hmoved', hord', hno⟩ :=
        ih hinv hmoved.lt hmoved.held' hmoved.type' hordq (by omega)
      refine ⟨q', k', s'', ?_, hinv', hmoved.trans hmoved', hord', hno⟩
      rw [bkpFreeLoop, hm]
      exact hl
    · refine ⟨p, k, s, ?_, h, .refl hp hheld htype, hord, fun _ => hno⟩
      rw [bkpFreeLoop, hm]

/-! ### `bkp_free` -/

/-- The effect of giving the pages `R` back to the pools. -/
structure Released (c : Layout) (s s' : Buddy) (R : Set ℕ) : Prop where
  pages_eq : freePages c s' = freePages c s ∪ R
  other : ∀ r, r ∉ R → ¬ s.FreeHead r → s'.pages r = s.pages r
  held_iff : ∀ r < c.pageNums, s'.HeldHead r ↔ s.HeldHead r ∧ r ∉ R
  static_iff : ∀ r, s'.Static r ↔ s.Static r
  coalesced : Coalesced c s → Coalesced c s'

theorem Released.refl (s : Buddy) : Released c s s ∅ where
  pages_eq := by simp
  other := fun _ _ _ => rfl
  held_iff := fun _ _ => by simp
  static_iff := fun _ => Iff.rfl
  coalesced := id

theorem Inserted.freePages_eq {s s' : Buddy} {raw : Set ℕ} {k p : ℕ} (i : Inserted s s' k p)
    (h : Inv c s raw) (h' : Inv c s' raw) (hp : p < c.pageNums) :
    freePages c s' = freePages c s ∪ s.block p := by
  have hblock : ∀ r, s'.block r = s.block r := by
    intro r
    unfold block
    by_cases hr : r = p
    · rw [hr, i.order', i.order]
    · unfold Buddy.order
      rw [i.other r hr]
  ext x
  simp only [Set.mem_union, h.mem_freePages, h'.mem_freePages, hblock]
  constructor
  · rintro ⟨r, hr, hf, hx⟩
    by_cases hrp : r = p
    · exact .inr (hrp ▸ hx)
    · unfold FreeHead at hf
      rw [i.other r hrp] at hf
      exact .inl ⟨r, hr, hf, hx⟩
  · rintro (⟨r, hr, hf, hx⟩ | hx)
    · have hrp : r ≠ p := by
        rintro rfl
        exact hf.not_held i.held
      refine ⟨r, hr, ?_, hx⟩
      unfold FreeHead
      rwa [i.other r hrp]
    · exact ⟨p, hp, i.free', hx⟩

theorem Inserted.coalesced {s s' : Buddy} {raw : Set ℕ} {k p : ℕ} (i : Inserted s s' k p)
    (h : Inv c s raw) (h' : Inv c s' raw) (hno : k + 1 < c.maxOrder → NoNeighbour c s k p)
    (hc : Coalesced c s) : Coalesced c s' := by
  have hpos : ∀ k : ℕ, 0 < 2 ^ k := Nat.two_pow_pos
  rw [h.coalesced_iff] at hc
  rw [h'.coalesced_iff]
  have hold : ∀ r, r ≠ p → s'.FreeHead r → s.FreeHead r ∧ s'.order r = s.order r := by
    intro r hr hf
    unfold FreeHead at hf ⊢
    unfold Buddy.order
    rw [i.other r hr] at hf ⊢
    exact ⟨hf, rfl⟩
  intro x hx hfx hkx r hr hfr hordr
  by_cases h1 : x = p
  · subst h1
    rw [i.order'] at hkx hordr ⊢
    by_cases h2 : r = x
    · subst h2
      have := hpos k
      omega
    · obtain ⟨h3, h4⟩ := hold r h2 hfr
      exact hno hkx r hr h3 (h4 ▸ hordr)
  · obtain ⟨h3, h4⟩ := hold x h1 hfx
    rw [h4] at hkx hordr ⊢
    by_cases h2 : r = p
    · subst h2
      rw [i.order'] at hordr
      have := hno (hordr ▸ hkx) x hx h3 hordr.symm
      rw [← hordr]
      exact this.symm
    · obtain ⟨h5, h6⟩ := hold r h2 hfr
      exact hc x hx h3 hkx r hr h5 (h6 ▸ hordr)

/-- Freeing a held block gives its pages back. -/
theorem bkpFree_spec {s : Buddy} {raw : Set ℕ} {p : ℕ} (h : Inv c s raw) (hp : p < c.pageNums)
    (hheld : s.HeldHead p) (htype : (s.pages p).pgtype = .buddyAllocator) :
    ∃ s', bkpFree c s p = some s' ∧ Inv c s' raw ∧ Released c s s' (s.block p) := by
  have hk := h.order_lt p hp (.inl hheld)
  have hentry : bkpFreeEntry c s p = some (s.order p) := if_pos ⟨hp, htype, hheld, hk⟩
  obtain ⟨q, k', s₁, hloop, hinv₁, hm, hord, hno⟩ :=
    bkpFreeLoop_spec (c.maxOrder - 1 - s.order p) h hp hheld htype rfl (by omega)
  obtain ⟨s', hins, hi, hinv'⟩ := insert_spec hinv₁ hm.lt hm.held' hm.type' hord
  have hpin : p ∈ s.block p := ⟨le_rfl, by have := Nat.two_pow_pos (s.order p); omega⟩
  have hother : ∀ r, r ≠ p → ¬ s.FreeHead r → r ≠ q := by
    rintro r hr hf rfl
    rcases hm.origin with e | e
    exacts [hr e, hf e]
  refine ⟨s', ?_, hinv', ?_, fun r hr hf => ?_, fun r hrn => ?_, fun r => ?_, fun hc => ?_⟩
  · unfold bkpFree
    rw [hentry]
    simp only [hloop, hins]
  · rw [hi.freePages_eq hinv₁ hinv' hm.lt, hm.pages_eq]
  · have hrp : r ≠ p := fun e => hr (e ▸ hpin)
    rw [hi.other r (hother r hrp hf), hm.other r hrp hf]
  · constructor
    · intro hr
      have hq : r ≠ q := by
        rintro rfl
        exact hi.free'.not_held hr
      unfold HeldHead at hr
      rw [hi.other r hq] at hr
      rcases hm.held_sub r hr with e | ⟨e, hrp⟩
      · exact absurd e hq
      · exact ⟨e, fun hin => hrp (h.block_unique hrn (.inl e) hp (.inl hheld)
          ⟨le_rfl, by have := Nat.two_pow_pos (s.order r); omega⟩ hin)⟩
    · rintro ⟨hr, hin⟩
      have hf : ¬ s.FreeHead r := fun e => e.not_held hr
      have hrp : r ≠ p := fun e => hin (e ▸ hpin)
      unfold HeldHead
      rwa [hi.other r (hother r hrp hf), hm.other r hrp hf]
  · rw [← hm.static_iff r]
    by_cases hq : r = q
    · subst hq
      exact iff_of_false (Head.not_static (.inr hi.free')) (Head.not_static (.inl hm.held'))
    · unfold Static
      rw [hi.other r hq]
  · refine hi.coalesced hinv₁ hinv' hno ?_
    rw [h.coalesced_iff] at hc
    rw [hinv₁.coalesced_iff]
    intro x hx hfx hkx r hr hfr hordr
    obtain ⟨h1, h2⟩ := hm.free_sub x hfx
    obtain ⟨h3, h4⟩ := hm.free_sub r hfr
    unfold Buddy.order at hkx hordr ⊢
    rw [h2] at hkx hordr ⊢
    rw [h4] at hordr
    exact hc x hx h1 hkx r hr h3 hordr

/-! ### `bkp_alloc` -/

theorem Carved.freeHead_iff {s s' : Buddy} {i p : ℕ} (k : Carved c s s' i p) (r : ℕ) :
    s'.FreeHead r ↔ s.FreeHead r := by
  by_cases hr : r = p
  · subst hr
    exact iff_of_false (fun e => e.not_held k.held') fun e => Head.not_body (.inr e) k.body
  · unfold FreeHead
    rw [k.other r hr]

/-- Carving a piece out of the uncovered pages and freeing it gives its pages back. -/
theorem carve_free_spec {s : Buddy} {raw : Set ℕ} {i p : ℕ} (h : Inv c s raw)
    (hi : i < c.maxOrder) (hraw : Set.Ico p (p + 2 ^ i) ⊆ raw) :
    ∃ s₁ s', bkpAllocCarve c s p i = some s₁ ∧ bkpFree c s₁ p = some s' ∧
      Inv c s' (raw \ Set.Ico p (p + 2 ^ i)) ∧ Released c s s' (Set.Ico p (p + 2 ^ i)) := by
  have hpos := Nat.two_pow_pos i
  obtain ⟨hp, hbody⟩ := h.raw_body p (hraw ⟨le_rfl, by omega⟩)
  obtain ⟨s₁, hcarve, k, hinv₁⟩ := carve_spec h hi hraw
  have htype : (s₁.pages p).pgtype = .buddyAllocator :=
    k.type'.trans (h.pgtype p hp fun e => Head.not_body (.inl e) hbody)
  obtain ⟨s', hfree, hinv', hr⟩ := bkpFree_spec hinv₁ hp k.held' htype
  have hblock : s₁.block p = Set.Ico p (p + 2 ^ i) := by rw [block, k.order']
  rw [hblock] at hr
  have hpin : p ∈ Set.Ico p (p + 2 ^ i) := ⟨le_rfl, by omega⟩
  refine ⟨s₁, s', hcarve, hfree, hinv', ?_, fun r hrn hf => ?_, fun r hrn => ?_, fun r => ?_,
    fun hc => hr.coalesced ?_⟩
  · rw [hr.pages_eq]
    unfold freePages
    rw [k.pools]
  · rw [hr.other r hrn fun e => hf ((k.freeHead_iff r).1 e),
      k.other r fun e => hrn (e ▸ hpin)]
  · rw [hr.held_iff r hrn]
    refine and_congr_left fun hnin => ?_
    unfold HeldHead
    rw [k.other r fun e => hnin (e ▸ hpin)]
  · rw [hr.static_iff r]
    by_cases hrp : r = p
    · subst hrp
      exact iff_of_false (Head.not_static (.inl k.held')) hbody.not_static
    · unfold Static
      rw [k.other r hrp]
  · unfold Coalesced
    rw [k.pools]
    exact hc

theorem Released.trans {s s' s'' : Buddy} {R R' : Set ℕ} (h : Released c s s' R)
    (h' : Released c s' s'' R') : Released c s s'' (R ∪ R') where
  pages_eq := by rw [h'.pages_eq, h.pages_eq, Set.union_assoc]
  other := fun r hr hf => by
    rw [Set.mem_union, not_or] at hr
    have h1 := h.other r hr.1 hf
    rw [← h1]
    refine h'.other r hr.2 ?_
    unfold FreeHead
    rwa [h1]
  held_iff := fun r hr => by
    rw [h'.held_iff r hr, h.held_iff r hr, Set.mem_union]
    tauto
  static_iff := fun r => (h'.static_iff r).trans (h.static_iff r)
  coalesced := fun hc => h'.coalesced (h.coalesced hc)

/-- The bit test of the split loop, on a remainder that fits the bits not yet seen. -/
theorem and_shift_ne_zero {num i : ℕ} (h : num < 2 ^ (i + 1)) :
    num &&& (1 <<< i) ≠ 0 ↔ 2 ^ i ≤ num := by
  rw [Nat.one_shiftLeft, Nat.and_two_pow]
  constructor
  · intro hne
    have hb : num.testBit i = true := by
      by_contra hb
      simp [hb] at hne
    exact Nat.ge_two_pow_of_testBit hb
  · intro hle
    have hb : num.testBit i = true := by
      rw [Nat.testBit_eq_decide_div_mod_eq]
      have : num / 2 ^ i = 1 := by
        have hs : 2 ^ (i + 1) = 2 * 2 ^ i := by ring
        exact Nat.div_eq_of_lt_le (by omega) (by omega)
      simp [this]
    simp [hb]

/-- The split loop gives the whole remainder back. -/
theorem bkpAllocSplit_spec : ∀ (i : ℕ) {s : Buddy} {rest num : ℕ}, i ≤ c.maxOrder →
    num < 2 ^ i → Inv c s (Set.Ico rest (rest + num)) →
    ∃ s', bkpAllocSplit c i s rest num = some s' ∧ Inv c s' ∅ ∧
      Released c s s' (Set.Ico rest (rest + num)) := by
  intro i
  induction i with
  | zero =>
    intro s rest num _ hnum h
    have : num = 0 := by omega
    subst this
    simp only [add_zero, Set.Ico_self] at h ⊢
    exact ⟨s, rfl, h, .refl s⟩
  | succ i ih =>
    intro s rest num hi hnum h
    rw [bkpAllocSplit]
    by_cases h0 : num = 0
    · subst h0
      simp only [add_zero, Set.Ico_self] at h ⊢
      exact ⟨s, rfl, h, .refl s⟩
    · rw [if_neg h0]
      have hs : 2 ^ (i + 1) = 2 ^ i + 2 ^ i := by ring
      by_cases hbit : 2 ^ i ≤ num
      · rw [if_pos ((and_shift_ne_zero hnum).2 hbit), Nat.one_shiftLeft]
        have hsub : Set.Ico rest (rest + 2 ^ i) ⊆ Set.Ico rest (rest + num) :=
          Set.Ico_subset_Ico_right (by omega)
        obtain ⟨s₁, s₂, hcarve, hfree, hinv₂, hr⟩ := carve_free_spec h (by omega) hsub
        have hraw : Set.Ico rest (rest + num) \ Set.Ico rest (rest + 2 ^ i) =
            Set.Ico (rest + 2 ^ i) (rest + 2 ^ i + (num - 2 ^ i)) := by
          ext x
          simp only [Set.mem_sdiff, Set.mem_Ico]
          omega
        rw [hraw] at hinv₂
        obtain ⟨s', hsplit, hinv', hr'⟩ := ih (by omega) (by omega) hinv₂
        refine ⟨s', ?_, hinv', ?_⟩
        · simp only [hcarve, hfree]
          exact hsplit
        · have hunion : Set.Ico rest (rest + num) = Set.Ico rest (rest + 2 ^ i) ∪
              Set.Ico (rest + 2 ^ i) (rest + 2 ^ i + (num - 2 ^ i)) := by
            ext x
            simp only [Set.mem_union, Set.mem_Ico]
            omega
          rw [hunion]
          exact hr.trans hr'
      · rw [if_neg fun e => hbit ((and_shift_ne_zero hnum).1 e)]
        exact ih (by omega) (by omega) h

/-- The effect of handing out the block `p` of order `oo`. -/
structure Allocated (c : Layout) (s s' : Buddy) (oo p : ℕ) : Prop where
  lt : p < c.pageNums
  sub : Set.Ico p (p + 2 ^ oo) ⊆ freePages c s
  pages_eq : freePages c s' = freePages c s \ Set.Ico p (p + 2 ^ oo)
  held' : s'.HeldHead p
  order' : s'.order p = oo
  type' : (s'.pages p).pgtype = .buddyAllocator
  other : ∀ r, r ∉ freePages c s → r < c.pageNums → s'.pages r = s.pages r
  held_iff : ∀ r < c.pageNums, s'.HeldHead r ↔ s.HeldHead r ∨ r = p
  static_iff : ∀ r, s'.Static r ↔ s.Static r
  coalesced : Coalesced c s → Coalesced c s'

namespace Took

variable {s s' : Buddy} {k oo p : ℕ}

theorem freeHead_iff (t : Took c s s' k oo p) (r : ℕ) :
    s'.FreeHead r ↔ s.FreeHead r ∧ r ≠ p := by
  by_cases hr : r = p
  · subst hr
    exact iff_of_false (fun e => e.not_held t.held') fun e => e.2 rfl
  · unfold FreeHead
    rw [t.other r hr]
    simp [hr]

theorem order_other (t : Took c s s' k oo p) {r : ℕ} (hr : r ≠ p) : s'.order r = s.order r := by
  unfold Buddy.order
  rw [t.other r hr]

theorem static_iff (t : Took c s s' k oo p) (r : ℕ) : s'.Static r ↔ s.Static r := by
  by_cases hr : r = p
  · subst hr
    exact iff_of_false (Head.not_static (.inl t.held')) (Head.not_static (.inr t.free))
  · unfold Static
    rw [t.other r hr]

theorem sub_freePages {raw : Set ℕ} (t : Took c s s' k oo p) (h : Inv c s raw) :
    Set.Ico p (p + 2 ^ k) ⊆ freePages c s := by
  intro x hx
  exact h.mem_freePages.2 ⟨p, t.lt, t.free, by rwa [block, t.order]⟩

theorem freePages_eq {raw raw' : Set ℕ} (t : Took c s s' k oo p) (h : Inv c s raw)
    (h' : Inv c s' raw') : freePages c s' = freePages c s \ Set.Ico p (p + 2 ^ k) := by
  have hblockp : s.block p = Set.Ico p (p + 2 ^ k) := by rw [block, t.order]
  ext x
  rw [Set.mem_sdiff, h.mem_freePages, h'.mem_freePages, ← hblockp]
  constructor
  · rintro ⟨r, hr, hf, hx⟩
    obtain ⟨h1, h2⟩ := (t.freeHead_iff r).1 hf
    rw [block, t.order_other h2] at hx
    exact ⟨⟨r, hr, h1, hx⟩, fun hxp => h2 (h.block_unique hr (.inr h1) t.lt (.inr t.free) hx hxp)⟩
  · rintro ⟨⟨r, hr, hf, hx⟩, hxp⟩
    have h2 : r ≠ p := by
      rintro rfl
      exact hxp hx
    exact ⟨r, hr, (t.freeHead_iff r).2 ⟨hf, h2⟩, by rwa [block, t.order_other h2]⟩

theorem coalesced {raw raw' : Set ℕ} (t : Took c s s' k oo p) (h : Inv c s raw)
    (h' : Inv c s' raw') (hc : Coalesced c s) : Coalesced c s' := by
  rw [h.coalesced_iff] at hc
  rw [h'.coalesced_iff]
  intro x hx hfx hkx r hr hfr hordr
  obtain ⟨h1, h2⟩ := (t.freeHead_iff x).1 hfx
  obtain ⟨h3, h4⟩ := (t.freeHead_iff r).1 hfr
  rw [t.order_other h2] at hkx hordr ⊢
  rw [t.order_other h4] at hordr
  exact hc x hx h1 hkx r hr h3 hordr

/-- Taking a block and giving its remainder back hands out the left end of it. -/
theorem allocated {s'' : Buddy} {raw' : Set ℕ} (t : Took c s s' k oo p) (h : Inv c s ∅)
    (h' : Inv c s' raw') (hoo : oo ≤ k)
    (hr : Released c s' s'' (Set.Ico (p + 2 ^ oo) (p + 2 ^ k))) : Allocated c s s'' oo p := by
  have hpow : 2 ^ oo ≤ 2 ^ k := Nat.pow_le_pow_right (by norm_num) hoo
  have hpos := Nat.two_pow_pos oo
  have hsub := t.sub_freePages h
  have hp : p ∉ Set.Ico (p + 2 ^ oo) (p + 2 ^ k) := by
    simp only [Set.mem_Ico]
    omega
  have hsame : s''.pages p = s'.pages p := hr.other p hp fun e => e.not_held t.held'
  refine ⟨t.lt, (Set.Ico_subset_Ico_right (by omega)).trans hsub, ?_, ?_, ?_, ?_,
    fun r hrf hrn => ?_, fun r hrn => ?_, fun r => ?_, fun hc => ?_⟩
  · rw [hr.pages_eq, t.freePages_eq h h']
    ext x
    have hx := @hsub x
    simp only [Set.mem_union, Set.mem_sdiff, Set.mem_Ico] at hx ⊢
    constructor
    · rintro (⟨h1, h2⟩ | h1)
      · exact ⟨h1, by omega⟩
      · exact ⟨hx (by omega), by omega⟩
    · rintro ⟨h1, h2⟩
      by_cases h3 : p ≤ x ∧ x < p + 2 ^ k
      · exact .inr (by omega)
      · exact .inl ⟨h1, h3⟩
  · unfold HeldHead
    rw [hsame]
    exact t.held'
  · unfold Buddy.order
    rw [hsame]
    exact t.order'
  · rw [hsame, t.type']
    exact h.pgtype p t.lt t.free.not_held
  · have hrp : r ∉ Set.Ico p (p + 2 ^ k) := fun e => hrf (hsub e)
    have hne : r ≠ p := by
      rintro rfl
      exact hrp ⟨le_rfl, by omega⟩
    have hnf : ¬ s.FreeHead r := by
      intro e
      have := Nat.two_pow_pos (s.order r)
      exact hrf (h.mem_freePages.2 ⟨r, hrn, e, ⟨le_rfl, by omega⟩⟩)
    rw [hr.other r (fun e => hrp ⟨by have := e.1; omega, e.2⟩)
      (fun e => hnf ((t.freeHead_iff r).1 e).1), t.other r hne]
  · rw [hr.held_iff r hrn]
    by_cases hne : r = p
    · subst hne
      exact iff_of_true ⟨t.held', hp⟩ (.inr rfl)
    · have hsame' : s'.HeldHead r ↔ s.HeldHead r := by
        unfold HeldHead
        rw [t.other r hne]
      rw [hsame', or_iff_left hne]
      refine and_iff_left_of_imp fun e hin => ?_
      -- the remainder lies inside the block that was free
      have hin' : r ∈ s.block p := by
        rw [block, t.order]
        exact ⟨by have := hin.1; omega, hin.2⟩
      have := Nat.two_pow_pos (s.order r)
      exact hne (h.block_unique hrn (.inl e) t.lt (.inr t.free) ⟨le_rfl, by omega⟩ hin')
  · exact (hr.static_iff r).trans (t.static_iff r)
  · exact hr.coalesced (t.coalesced h h' hc)

end Took

/-- The search for a pool with a block: either there is none, or the call succeeds. -/
theorem bkpAllocLoop_spec {oo : ℕ} : ∀ (n : ℕ) {s : Buddy} {k : ℕ}, Inv c s ∅ → oo ≤ k →
    n + k = c.maxOrder →
    (bkpAllocLoop c oo n s k = some (none, s) ∧
      ∀ j, k ≤ j → j < c.maxOrder → (s.orderPools j).list = []) ∨
    ((∃ j, k ≤ j ∧ j < c.maxOrder ∧ (s.orderPools j).list ≠ []) ∧
      ∃ p s', bkpAllocLoop c oo n s k = some (some p, s') ∧ Inv c s' ∅ ∧
        Allocated c s s' oo p) := by
  intro n
  induction n with
  | zero =>
    intro s k h hoo hk
    exact .inl ⟨rfl, fun j h1 h2 => by omega⟩
  | succ n ih =>
    intro s k h hoo hk
    rw [bkpAllocLoop]
    rcases take_spec h (by omega : k < c.maxOrder) hoo with ⟨ht, hempty⟩ | ⟨p, s', ht, took, h'⟩
    · simp only [ht]
      rcases ih h (by omega : oo ≤ k + 1) (by omega) with ⟨hl, hall⟩ | ⟨⟨j, h1, h2, h3⟩, hres⟩
      · left
        refine ⟨hl, fun j h1 h2 => ?_⟩
        rcases Nat.eq_or_lt_of_le h1 with rfl | h3
        · exact hempty
        · exact hall j h3 h2
      · exact .inr ⟨⟨j, by omega, h2, h3⟩, hres⟩
    · right
      have hin := (h.mem_list k (by omega) p).2 ⟨took.lt, took.free, took.order⟩
      refine ⟨⟨k, le_rfl, by omega, List.ne_nil_of_mem hin⟩, p, ?_⟩
      have hpow : 2 ^ oo ≤ 2 ^ k := Nat.pow_le_pow_right (by norm_num) hoo
      have hpos := Nat.two_pow_pos oo
      have hkm : 2 ^ k ≤ 2 ^ c.maxOrder := Nat.pow_le_pow_right (by norm_num) (by omega)
      have hend : p + 2 ^ k = p + 2 ^ oo + (2 ^ k - 2 ^ oo) := by omega
      have hsplit := h'
      rw [Set.empty_union, hend] at hsplit
      obtain ⟨s'', hs, hinv, hr⟩ := bkpAllocSplit_spec c.maxOrder le_rfl (by omega) hsplit
      refine ⟨s'', ?_, hinv, ?_⟩
      · simp only [ht, Layout.order2pgnum, hs]
      · rw [← hend] at hr
        exact took.allocated h h' hoo hr

theorem bkpAlloc_none {s : Buddy} {k : ℤ} (h : Inv c s ∅)
    (hk : ¬ (0 ≤ k ∧ k < c.maxOrder) ∨
      ∀ j : ℕ, k ≤ j → j < c.maxOrder → (s.orderPools j).list = []) :
    bkpAlloc c s k = some (none, s) := by
  unfold bkpAlloc
  by_cases hr : 0 ≤ k ∧ k < c.maxOrder
  · rw [if_neg (not_not.2 hr)]
    rcases bkpAllocLoop_spec (k := k.toNat) (c.maxOrder - k.toNat) h le_rfl (by omega) with
      ⟨hl, -⟩ | ⟨⟨j, h1, h2, h3⟩, -⟩
    · exact hl
    · rcases hk with hk | hk
      · exact absurd hr hk
      · exact absurd (hk j (by omega) h2) h3
  · rw [if_pos hr]

theorem bkpAlloc_some {s : Buddy} {k : ℤ} (h : Inv c s ∅) (hk : 0 ≤ k ∧ k < c.maxOrder)
    (hex : ∃ j : ℕ, k ≤ j ∧ j < c.maxOrder ∧ (s.orderPools j).list ≠ []) :
    ∃ p s', bkpAlloc c s k = some (some p, s') ∧ Inv c s' ∅ ∧ Allocated c s s' k.toNat p := by
  unfold bkpAlloc
  rw [if_neg (not_not.2 hk)]
  rcases bkpAllocLoop_spec (k := k.toNat) (c.maxOrder - k.toNat) h le_rfl (by omega) with
    ⟨-, hall⟩ | ⟨-, hres⟩
  · obtain ⟨j, h1, h2, h3⟩ := hex
    exact absurd (hall j (by omega) h2) h3
  · exact hres

end AcoOs
