/-
The representation invariant of the buddy allocator, one critical section at a
time.

`Inv c s raw` says that the blocks tile the pages that are neither `STATIC` nor
in `raw`, that every other page is a body page exactly as the code writes it,
and that the pools link exactly the free heads.  `raw` is the set of body pages
no head covers, which is where `bkp_alloc` cuts the remainder of a block; it is
empty between calls.

Each section of the code gets one lemma that keeps the invariant and one that
says what the section did; the loops, the sequential runs and the interleaving
machine are all proved from these.
-/
import AcoOs.BuddyAllocator
import AcoOs.Tiling

namespace AcoOs

open Tiling

namespace Buddy

/-- A block that is linked in a pool. -/
def FreeHead (s : Buddy) (p : ℕ) : Prop := (s.pages p).Infrlist

/-- A block that is handed out or in transit between pools. -/
def HeldHead (s : Buddy) (p : ℕ) : Prop := (s.pages p).Freeable

/-- The first page of a block. -/
def Head (s : Buddy) (p : ℕ) : Prop := s.HeldHead p ∨ s.FreeHead p

/-- A page inside a block, exactly as the code writes it. -/
def Body (c : Layout) (s : Buddy) (p : ℕ) : Prop :=
  (s.pages p).buddyFlags = flagBody ∧ (s.pages p).buddyOrder = c.maxOrder

/-- A page the allocator never hands out. -/
def Static (s : Buddy) (p : ℕ) : Prop := (s.pages p).buddyFlags = flagStatic

/-- The order in the descriptor of a page. -/
def order (s : Buddy) (p : ℕ) : ℕ := (s.pages p).buddyOrder

/-- The pages of the block whose head is `p`. -/
def block (s : Buddy) (p : ℕ) : Set ℕ := Set.Ico p (p + 2 ^ s.order p)

instance (s : Buddy) (p : ℕ) : Decidable (s.FreeHead p) :=
  inferInstanceAs (Decidable (s.pages p).Infrlist)

instance (s : Buddy) (p : ℕ) : Decidable (s.HeldHead p) :=
  inferInstanceAs (Decidable (s.pages p).Freeable)

instance (s : Buddy) (p : ℕ) : Decidable (s.Head p) :=
  inferInstanceAs (Decidable (_ ∨ _))

instance (s : Buddy) (p : ℕ) : Decidable (s.Static p) :=
  inferInstanceAs (Decidable (_ = _))

instance (c : Layout) (s : Buddy) (p : ℕ) : Decidable (s.Body c p) :=
  inferInstanceAs (Decidable (_ ∧ _))

/-- The tiling of the page array by blocks. -/
def len (c : Layout) (s : Buddy) (p : ℕ) : ℕ :=
  if p < c.pageNums ∧ s.Head p then 2 ^ s.order p else 0

/-- The pages no block covers. -/
def skip (s : Buddy) (raw : Set ℕ) : Set ℕ := {p | s.Static p} ∪ raw

theorem FreeHead.not_held {s : Buddy} {p : ℕ} (h : s.FreeHead p) : ¬ s.HeldHead p := by
  unfold FreeHead Pageframe.Infrlist at h
  unfold HeldHead Pageframe.Freeable
  rw [h]
  decide

theorem Head.not_body {c : Layout} {s : Buddy} {p : ℕ} (h : s.Head p) : ¬ s.Body c p := by
  rintro ⟨hb, -⟩
  unfold Head HeldHead FreeHead Pageframe.Freeable Pageframe.Infrlist at h
  rw [hb] at h
  revert h
  decide

theorem Head.not_static {s : Buddy} {p : ℕ} (h : s.Head p) : ¬ s.Static p := by
  intro hb
  unfold Static at hb
  unfold Head HeldHead FreeHead Pageframe.Freeable Pageframe.Infrlist at h
  rw [hb] at h
  revert h
  decide

theorem Body.not_static {c : Layout} {s : Buddy} {p : ℕ} (h : s.Body c p) : ¬ s.Static p := by
  intro hb
  unfold Static at hb
  rw [h.1] at hb
  revert hb
  decide

/-- Everything the invariant says about a page is read from its descriptor. -/
theorem len_congr {c : Layout} {s s' : Buddy} {p : ℕ} (h : s'.pages p = s.pages p) :
    s'.len c p = s.len c p := by
  unfold len
  refine if_congr ?_ ?_ rfl
  · unfold Head HeldHead FreeHead
    rw [h]
  · unfold order
    rw [h]

end Buddy

open Buddy

variable {c : Layout}

/-- The representation invariant, relative to the uncovered body pages `raw`. -/
structure Inv (c : Layout) (s : Buddy) (raw : Set ℕ) : Prop where
  kind : ∀ p < c.pageNums, s.Static p ∨ s.Head p ∨ s.Body c p
  pgtype : ∀ p < c.pageNums, ¬ s.HeldHead p → (s.pages p).pgtype = .buddyAllocator
  order_lt : ∀ p < c.pageNums, s.Head p → s.order p < c.maxOrder
  tiles : Tiles c.pageNums (s.len c) (s.skip raw)
  raw_body : ∀ q ∈ raw, q < c.pageNums ∧ s.Body c q
  nodup : ∀ k < c.maxOrder, (s.orderPools k).list.Nodup
  mem_list : ∀ k < c.maxOrder, ∀ p, p ∈ (s.orderPools k).list ↔
    p < c.pageNums ∧ s.FreeHead p ∧ s.order p = k
  count : ∀ k < c.maxOrder, (s.orderPools k).restBlockNum = (s.orderPools k).list.length
  size : ∀ k < c.maxOrder, (s.orderPools k).blockSize = toInt32 (Layout.order2byte k)

namespace Inv

variable {s : Buddy} {raw : Set ℕ}

theorem len_eq (p : ℕ) (hp : p < c.pageNums) (hh : s.Head p) : s.len c p = 2 ^ s.order p :=
  if_pos ⟨hp, hh⟩

theorem len_pos {p : ℕ} : 0 < s.len c p ↔ p < c.pageNums ∧ s.Head p := by
  unfold Buddy.len
  split_ifs with h
  · exact ⟨fun _ => h, fun _ => Nat.two_pow_pos _⟩
  · simp [h]

/-- On a page of the array the merge test finds exactly the free heads. -/
theorem mergeable (h : Inv c s raw) {p k : ℕ} (hp : p < c.pageNums) :
    (s.pages p).Mergeable k ↔ s.FreeHead p ∧ s.order p = k := by
  have htype := h.pgtype p hp
  have hflags : ∀ f, (s.pages p).buddyFlags = f → (f &&& flagHead ≠ 0 ∧ f &&& flagBody = 0 ∧
      f &&& flagFree ≠ 0 ↔ f = flagHead ||| flagFree) → f ≠ flagHead ∨ f ≠ flagHead ||| flagFree →
      ((s.pages p).Mergeable k ↔ s.FreeHead p ∧ s.order p = k) := by
    intro f hf hiff hne
    unfold Pageframe.Mergeable
    unfold HeldHead Pageframe.Freeable at htype
    unfold FreeHead Pageframe.Infrlist Buddy.order
    rw [hf] at htype ⊢
    rw [hiff]
    constructor
    · rintro ⟨-, ho, hf⟩
      exact ⟨hf, ho⟩
    · rintro ⟨hf', ho⟩
      refine ⟨htype ?_, ho, hf'⟩
      rw [hf']
      decide
  rcases h.kind p hp with hk | (hk | hk) | hk
  · exact hflags _ hk (by decide) (by decide)
  · exact hflags _ hk (by decide) (by decide)
  · exact hflags _ hk (by decide) (by decide)
  · exact hflags _ hk.1 (by decide) (by decide)

/-- The pages of a block, other than its head, are body pages. -/
theorem body (h : Inv c s raw) {p q : ℕ} (hp : p < c.pageNums) (hh : s.Head p) (hpq : p < q)
    (hq : q ∈ s.block p) : q < c.pageNums ∧ s.Body c q ∧ q ∉ raw := by
  have hlen := len_eq p hp hh
  have hq2 : q < p + s.len c p := by
    rw [hlen]
    exact hq.2
  have hn := h.tiles.fits p (by omega)
  have hs := h.tiles.avoid p q hpq.le hq2
  have ha := h.tiles.alone p q hpq hq2
  have hqn : q < c.pageNums := by omega
  refine ⟨hqn, ?_, fun hr => hs (.inr hr)⟩
  rcases h.kind q hqn with hk | hk | hk
  · exact absurd (.inl hk) hs
  · exact absurd (len_pos.2 ⟨hqn, hk⟩) (by omega)
  · exact hk

/-- No page of a block is `STATIC`. -/
theorem not_static_of_block (h : Inv c s raw) {p q : ℕ} (hp : p < c.pageNums) (hh : s.Head p)
    (hq : q ∈ s.block p) : ¬ s.Static q := by
  by_cases hqp : q = p
  · rw [hqp]
    exact hh.not_static
  · exact (h.body hp hh (lt_of_le_of_ne hq.1 (Ne.symm hqp)) hq).2.1.not_static

theorem block_le (h : Inv c s raw) {p : ℕ} (hp : p < c.pageNums) (hh : s.Head p) :
    p + 2 ^ s.order p ≤ c.pageNums := by
  have := h.tiles.fits p (len_pos.2 ⟨hp, hh⟩)
  rwa [len_eq p hp hh] at this

/-- Two blocks that share a page are one block. -/
theorem block_unique (h : Inv c s raw) {p q x : ℕ} (hp : p < c.pageNums) (hhp : s.Head p)
    (hq : q < c.pageNums) (hhq : s.Head q) (hxp : x ∈ s.block p) (hxq : x ∈ s.block q) :
    p = q := by
  refine h.tiles.unique hxp.1 ?_ hxq.1 ?_
  · rw [len_eq p hp hhp]
    exact hxp.2
  · rw [len_eq q hq hhq]
    exact hxq.2

end Inv

/-! ### Joining two blocks -/

/-- What joining needs: two adjacent blocks of order `k`, one of them linked in
the pool, the other in the hands of the caller. -/
structure Joinable (c : Layout) (s : Buddy) (k lo hi linked : ℕ) : Prop where
  order_lt : k + 1 < c.maxOrder
  hi_eq : hi = lo + 2 ^ k
  hi_lt : hi < c.pageNums
  order_lo : s.order lo = k
  order_hi : s.order hi = k
  linked_free : s.FreeHead linked
  linked_mem : linked = lo ∧ s.HeldHead hi ∨ linked = hi ∧ s.HeldHead lo
  type_hi : (s.pages hi).pgtype = .buddyAllocator

namespace Joinable

variable {s : Buddy} {raw : Set ℕ} {k lo hi linked : ℕ}

theorem pages_eq (j : Joinable c s k lo hi linked) (r : ℕ) :
    (joinBlocks c s k lo hi linked).pages r =
      if r = lo then { s.pages lo with buddyOrder := k + 1, buddyFlags := flagHead }
      else if r = hi then { s.pages hi with buddyOrder := c.maxOrder, buddyFlags := flagBody }
      else s.pages r := by
  have := j.order_lo
  simp only [Buddy.order] at this
  simp [joinBlocks, this]

theorem head_lo (j : Joinable c s k lo hi linked) : s.Head lo := by
  rcases j.linked_mem with ⟨h, -⟩ | ⟨-, h⟩
  · exact .inr (h ▸ j.linked_free)
  · exact .inl h

theorem head_hi (j : Joinable c s k lo hi linked) : s.Head hi := by
  rcases j.linked_mem with ⟨-, h⟩ | ⟨h, -⟩
  · exact .inl h
  · exact .inr (h ▸ j.linked_free)

theorem lo_lt (j : Joinable c s k lo hi linked) : lo < hi := by
  have := j.hi_eq
  have := Nat.two_pow_pos k
  omega

theorem hi_ne (j : Joinable c s k lo hi linked) : hi ≠ lo := j.lo_lt.ne'

/-- A free block of the pair is the linked one. -/
theorem eq_linked (j : Joinable c s k lo hi linked) {r : ℕ} (hf : s.FreeHead r)
    (hr : r = lo ∨ r = hi) : r = linked := by
  rcases j.linked_mem with ⟨h1, h2⟩ | ⟨h1, h2⟩
  · rcases hr with rfl | rfl
    · exact h1.symm
    · exact absurd h2 hf.not_held
  · rcases hr with rfl | rfl
    · exact absurd h2 hf.not_held
    · exact h1.symm

theorem held_lo (j : Joinable c s k lo hi linked) :
    (joinBlocks c s k lo hi linked).HeldHead lo := by
  unfold HeldHead Pageframe.Freeable
  rw [j.pages_eq, if_pos rfl]

theorem body_hi (j : Joinable c s k lo hi linked) :
    (joinBlocks c s k lo hi linked).Body c hi := by
  unfold Body
  rw [j.pages_eq, if_neg j.hi_ne, if_pos rfl]
  exact ⟨rfl, rfl⟩

theorem pages_other (j : Joinable c s k lo hi linked) {r : ℕ} (h1 : r ≠ lo) (h2 : r ≠ hi) :
    (joinBlocks c s k lo hi linked).pages r = s.pages r := by
  rw [j.pages_eq, if_neg h1, if_neg h2]

theorem order_lo' (j : Joinable c s k lo hi linked) :
    (joinBlocks c s k lo hi linked).order lo = k + 1 := by
  unfold Buddy.order
  rw [j.pages_eq, if_pos rfl]

theorem len_eq (j : Joinable c s k lo hi linked) :
    (joinBlocks c s k lo hi linked).len c =
      Function.update (Function.update (s.len c) hi 0) lo (s.len c lo + s.len c hi) := by
  have hlo := j.lo_lt.trans j.hi_lt
  funext r
  by_cases h1 : r = lo
  · subst h1
    rw [Function.update_self, Inv.len_eq r hlo (.inl j.held_lo), Inv.len_eq r hlo j.head_lo,
      Inv.len_eq hi j.hi_lt j.head_hi, j.order_lo', j.order_lo, j.order_hi]
    ring
  · rw [Function.update_of_ne h1]
    by_cases h2 : r = hi
    · subst h2
      rw [Function.update_self]
      exact if_neg fun h => h.2.not_body j.body_hi
    · rw [Function.update_of_ne h2]
      exact Buddy.len_congr (j.pages_other h1 h2)

theorem static_iff (j : Joinable c s k lo hi linked) (r : ℕ) :
    (joinBlocks c s k lo hi linked).Static r ↔ s.Static r := by
  by_cases h1 : r = lo
  · subst h1
    exact iff_of_false (Head.not_static (.inl j.held_lo)) j.head_lo.not_static
  · by_cases h2 : r = hi
    · subst h2
      exact iff_of_false j.body_hi.not_static j.head_hi.not_static
    · unfold Static
      rw [j.pages_other h1 h2]

theorem skip_eq (j : Joinable c s k lo hi linked) :
    (joinBlocks c s k lo hi linked).skip raw = s.skip raw := by
  unfold skip
  simp only [j.static_iff]

theorem freeHead_iff (j : Joinable c s k lo hi linked) (r : ℕ) :
    (joinBlocks c s k lo hi linked).FreeHead r ↔ s.FreeHead r ∧ r ≠ linked := by
  by_cases h1 : r = lo
  · refine iff_of_false (fun h => h.not_held (h1 ▸ j.held_lo)) fun h => ?_
    exact h.2 (j.eq_linked h.1 (.inl h1))
  · by_cases h2 : r = hi
    · subst h2
      refine iff_of_false (fun h => Head.not_body (.inr h) j.body_hi) fun h => ?_
      exact h.2 (j.eq_linked h.1 (.inr rfl))
    · have h3 : r ≠ linked := by
        rcases j.linked_mem with ⟨h, -⟩ | ⟨h, -⟩ <;> rw [h] <;> assumption
      unfold FreeHead
      rw [j.pages_other h1 h2]
      simp [h3]

theorem orderPools_eq (i : ℕ) : (joinBlocks c s k lo hi linked).orderPools i =
    if i = k then (s.orderPools k).unlink linked else s.orderPools i := by
  simp [joinBlocks]

theorem inv (j : Joinable c s k lo hi linked) (h : Inv c s raw) :
    Inv c (joinBlocks c s k lo hi linked) raw := by
  have hlo := j.lo_lt.trans j.hi_lt
  have hk : k < c.maxOrder := lt_trans (Nat.lt_succ_self k) j.order_lt
  have hlinked : linked < c.pageNums ∧ s.order linked = k := by
    rcases j.linked_mem with ⟨h, -⟩ | ⟨h, -⟩ <;> rw [h]
    · exact ⟨hlo, j.order_lo⟩
    · exact ⟨j.hi_lt, j.order_hi⟩
  have hin : linked ∈ (s.orderPools k).list :=
    (h.mem_list k hk linked).2 ⟨hlinked.1, j.linked_free, hlinked.2⟩
  refine ⟨fun r hr => ?_, fun r hr hh => ?_, fun r hr hh => ?_, ?_, fun q hq => ?_,
    fun i him => ?_, fun i him r => ?_, fun i him => ?_, fun i him => ?_⟩
  · by_cases h1 : r = lo
    · exact .inr (.inl (.inl (h1 ▸ j.held_lo)))
    · by_cases h2 : r = hi
      · rw [h2]
        exact .inr (.inr j.body_hi)
      · have := h.kind r hr
        unfold Static Head HeldHead FreeHead Body at this ⊢
        rwa [j.pages_other h1 h2]
  · by_cases h1 : r = lo
    · exact absurd (h1 ▸ j.held_lo) hh
    · by_cases h2 : r = hi
      · rw [j.pages_eq, if_neg h1, if_pos h2]
        exact j.type_hi
      · unfold HeldHead at hh
        rw [j.pages_other h1 h2] at hh ⊢
        exact h.pgtype r hr hh
  · by_cases h1 : r = lo
    · rw [h1, j.order_lo']
      exact j.order_lt
    · by_cases h2 : r = hi
      · rw [h2] at hh
        exact absurd j.body_hi hh.not_body
      · unfold Head HeldHead FreeHead at hh
        unfold Buddy.order
        rw [j.pages_other h1 h2] at hh ⊢
        exact h.order_lt r hr hh
  · rw [j.len_eq, j.skip_eq]
    refine h.tiles.join (Inv.len_pos.2 ⟨hlo, j.head_lo⟩) (Inv.len_pos.2 ⟨j.hi_lt, j.head_hi⟩) ?_
    rw [Inv.len_eq lo hlo j.head_lo, j.order_lo]
    exact j.hi_eq
  · obtain ⟨hn, hb⟩ := h.raw_body q hq
    refine ⟨hn, ?_⟩
    unfold Body
    rw [j.pages_other (fun e => j.head_lo.not_body (e ▸ hb))
      (fun e => j.head_hi.not_body (e ▸ hb))]
    exact hb
  · rw [orderPools_eq]
    split_ifs with hik
    · exact (h.nodup k hk).erase _
    · exact h.nodup i him
  · have horder : s.FreeHead r → r ≠ linked →
        (joinBlocks c s k lo hi linked).order r = s.order r := by
      intro hf hr
      unfold Buddy.order
      rw [j.pages_other (fun e => hr (j.eq_linked hf (.inl e)))
        (fun e => hr (j.eq_linked hf (.inr e)))]
    have hm := h.mem_list i him r
    rw [orderPools_eq, j.freeHead_iff]
    split_ifs with hik
    · subst hik
      rw [Mempool.unlink_list, (h.nodup i him).mem_erase_iff, hm]
      grind
    · grind
  · rw [orderPools_eq]
    split_ifs with hik
    · exact Mempool.unlink_count (h.count k hk) hin
    · exact h.count i him
  · rw [orderPools_eq]
    split_ifs with hik
    · exact hik ▸ h.size i him
    · exact h.size i him

end Joinable

/-- The block that one iteration of the merge loop joined with its held block `p`. -/
structure Merged (c : Layout) (s s' : Buddy) (k p q : ℕ) : Prop where
  exists_join : ∃ lo hi linked, Joinable c s k lo hi linked ∧ q = lo ∧ linked ≠ p ∧
    (p = lo ∨ p = hi) ∧ s' = joinBlocks c s k lo hi linked

/-- No free block of order `k` ends where `p` begins or begins where `p` ends. -/
def NoNeighbour (c : Layout) (s : Buddy) (k p : ℕ) : Prop :=
  ∀ r < c.pageNums, s.FreeHead r → s.order r = k → r + 2 ^ k ≠ p ∧ p + 2 ^ k ≠ r

theorem merge_spec {s : Buddy} {raw : Set ℕ} {k p : ℕ} (h : Inv c s raw) (hp : p < c.pageNums)
    (hheld : s.HeldHead p) (htype : (s.pages p).pgtype = .buddyAllocator)
    (hord : s.order p = k) (hk : k + 1 < c.maxOrder) :
    (∃ q s', bkpFreeMerge c s p k = some (some q, s') ∧ Merged c s s' k p q) ∨
    (bkpFreeMerge c s p k = some (none, s) ∧ NoNeighbour c s k p) := by
  have hkm : k < c.maxOrder := by omega
  have hassert : (s.pages p).pgtype = .buddyAllocator ∧ (s.pages p).buddyOrder = k ∧
      (s.pages p).buddyFlags = flagHead := ⟨htype, hord, hheld⟩
  have hpos := Nat.two_pow_pos k
  unfold bkpFreeMerge
  rw [if_pos hassert]
  -- the two tests, in terms of page numbers
  have hbef : (c.vaValid (c.befPgva p k) ∧ (s.pages (c.va2pg (c.befPgva p k))).Mergeable k) ↔
      2 ^ k ≤ p ∧ s.FreeHead (p - 2 ^ k) ∧ s.order (p - 2 ^ k) = k := by
    rw [Layout.vaValid_bef hp hkm]
    refine and_congr_right fun hle => ?_
    rw [Layout.va2pg_bef hp hkm hle]
    exact h.mergeable (lt_of_le_of_lt (Nat.sub_le p _) hp)
  have haft : (c.vaValid (c.aftPgva p k) ∧ (s.pages (c.va2pg (c.aftPgva p k))).Mergeable k) ↔
      p + 2 ^ k < c.pageNums ∧ s.FreeHead (p + 2 ^ k) ∧ s.order (p + 2 ^ k) = k := by
    rw [Layout.vaValid_aft hp hkm]
    refine and_congr_right fun hlt => ?_
    rw [Layout.va2pg_aft hp hkm hlt]
    exact h.mergeable hlt
  simp only [hbef, haft]
  by_cases h1 : 2 ^ k ≤ p ∧ s.FreeHead (p - 2 ^ k) ∧ s.order (p - 2 ^ k) = k
  · left
    obtain ⟨hle, hfree, hordb⟩ := h1
    rw [if_pos ⟨hle, hfree, hordb⟩, Layout.va2pg_bef hp hkm hle]
    refine ⟨_, _, rfl, ⟨p - 2 ^ k, p, p - 2 ^ k, ?_, rfl, by omega, .inr rfl, rfl⟩⟩
    exact ⟨hk, by omega, hp, hordb, hord, hfree, .inl ⟨rfl, hheld⟩, htype⟩
  · rw [if_neg h1]
    by_cases h2 : p + 2 ^ k < c.pageNums ∧ s.FreeHead (p + 2 ^ k) ∧ s.order (p + 2 ^ k) = k
    · left
      obtain ⟨hlt, hfree, horda⟩ := h2
      rw [if_pos ⟨hlt, hfree, horda⟩, Layout.va2pg_aft hp hkm hlt]
      refine ⟨_, _, rfl, ⟨p, p + 2 ^ k, p + 2 ^ k, ?_, rfl, by omega, .inl rfl, rfl⟩⟩
      exact ⟨hk, rfl, hlt, hord, horda, hfree, .inr ⟨rfl, hheld⟩,
        h.pgtype _ hlt hfree.not_held⟩
    · right
      rw [if_neg h2]
      refine ⟨rfl, fun r hr hfree hordr => ⟨?_, ?_⟩⟩
      · rintro rfl
        exact h1 ⟨by omega, by simpa using hfree, by simpa using hordr⟩
      · rintro rfl
        exact h2 ⟨hr, hfree, hordr⟩

/-! ### Sections that rewrite one descriptor -/

/-- The common part of taking, carving and inserting: page `p` becomes a head. -/
theorem Inv.of_one {s s' : Buddy} {raw raw' : Set ℕ} {p : ℕ} (h : Inv c s raw)
    (hp : p < c.pageNums) (hother : ∀ r, r ≠ p → s'.pages r = s.pages r)
    (hns : ¬ s.Static p) (hhead : s'.Head p) (hord : s'.order p < c.maxOrder)
    (htype : ¬ s'.HeldHead p → (s'.pages p).pgtype = .buddyAllocator)
    (htiles : Tiles c.pageNums (Function.update (s.len c) p (2 ^ s'.order p)) (s.skip raw'))
    (hraw : ∀ q ∈ raw', q < c.pageNums ∧ s'.Body c q)
    (hnodup : ∀ k < c.maxOrder, (s'.orderPools k).list.Nodup)
    (hmem : ∀ k < c.maxOrder, ∀ q, q ∈ (s'.orderPools k).list ↔
      q < c.pageNums ∧ s'.FreeHead q ∧ s'.order q = k)
    (hcount : ∀ k < c.maxOrder,
      (s'.orderPools k).restBlockNum = (s'.orderPools k).list.length)
    (hsize : ∀ k, (s'.orderPools k).blockSize = (s.orderPools k).blockSize) :
    Inv c s' raw' := by
  refine ⟨fun r hr => ?_, fun r hr hh => ?_, fun r hr hh => ?_, ?_, hraw, hnodup, hmem, hcount,
    fun k hk => (hsize k).trans (h.size k hk)⟩
  · by_cases h1 : r = p
    · exact .inr (.inl (h1 ▸ hhead))
    · have := h.kind r hr
      unfold Static Head HeldHead FreeHead Body at this ⊢
      rwa [hother r h1]
  · by_cases h1 : r = p
    · subst h1
      exact htype hh
    · unfold HeldHead at hh
      rw [hother r h1] at hh ⊢
      exact h.pgtype r hr hh
  · by_cases h1 : r = p
    · rw [h1]
      exact hord
    · unfold Head HeldHead FreeHead at hh
      unfold Buddy.order
      rw [hother r h1] at hh ⊢
      exact h.order_lt r hr hh
  · have hlen : s'.len c = Function.update (s.len c) p (2 ^ s'.order p) := by
      funext r
      by_cases h1 : r = p
      · subst h1
        rw [Function.update_self, Inv.len_eq r hp hhead]
      · rw [Function.update_of_ne h1]
        exact Buddy.len_congr (hother r h1)
    have hskip : s'.skip raw' = s.skip raw' := by
      have : ∀ r, s'.Static r ↔ s.Static r := by
        intro r
        by_cases h1 : r = p
        · subst h1
          exact iff_of_false hhead.not_static hns
        · unfold Static
          rw [hother r h1]
      unfold skip
      simp only [this]
    rw [hlen, hskip]
    exact htiles

/-- The first page of a free block `p` of order `k` became a held head of order
`oo`, and nothing else changed. -/
structure Took (c : Layout) (s s' : Buddy) (k oo p : ℕ) : Prop where
  lt : p < c.pageNums
  free : s.FreeHead p
  order : s.order p = k
  held' : s'.HeldHead p
  order' : s'.order p = oo
  type' : (s'.pages p).pgtype = (s.pages p).pgtype
  other : ∀ r, r ≠ p → s'.pages r = s.pages r

theorem take_spec {s : Buddy} {raw : Set ℕ} {k oo : ℕ} (h : Inv c s raw) (hk : k < c.maxOrder)
    (hoo : oo ≤ k) :
    (bkpAllocTake s k oo = some (none, s) ∧ (s.orderPools k).list = []) ∨
    ∃ p s', bkpAllocTake s k oo = some (some p, s') ∧ Took c s s' k oo p ∧
      Inv c s' (raw ∪ Set.Ico (p + 2 ^ oo) (p + 2 ^ k)) := by
  have hcount := h.count k hk
  rcases hl : (s.orderPools k).list with _ | ⟨p, rest⟩
  · left
    rw [hl] at hcount
    exact ⟨if_pos hcount, rfl⟩
  · right
    have hne : (s.orderPools k).restBlockNum ≠ 0 := by
      rw [hcount, hl, List.length_cons]
      omega
    have hin : p ∈ (s.orderPools k).list := by rw [hl]; exact List.mem_cons_self
    obtain ⟨hp, hfree, hord⟩ := (h.mem_list k hk p).1 hin
    set s' := (s.setPool k ((s.orderPools k).unlink p)).setPage p
      { s.pages p with buddyFlags := flagHead, buddyOrder := oo } with hs'
    have hother : ∀ r, r ≠ p → s'.pages r = s.pages r := by
      intro r hr
      simp [hs', hr]
    have hheld : s'.HeldHead p := by simp [hs', HeldHead, Pageframe.Freeable]
    have hord' : s'.order p = oo := by simp [hs', Buddy.order]
    have htype' : (s'.pages p).pgtype = (s.pages p).pgtype := by simp [hs']
    have hpools : ∀ i, s'.orderPools i =
        if i = k then (s.orderPools k).unlink p else s.orderPools i := by simp [hs']
    have hlenp : s.len c p = 2 ^ k := by rw [Inv.len_eq p hp (.inr hfree), hord]
    have hpow : 2 ^ oo ≤ 2 ^ k := Nat.pow_le_pow_right (by norm_num) hoo
    have hfree' : ∀ r, s'.FreeHead r ↔ s.FreeHead r ∧ r ≠ p := by
      intro r
      by_cases hr : r = p
      · subst hr
        exact iff_of_false (fun e => e.not_held hheld) fun e => e.2 rfl
      · unfold FreeHead
        rw [hother r hr]
        simp [hr]
    refine ⟨p, s', ?_, ⟨hp, hfree, hord, hheld, hord', htype', hother⟩, ?_⟩
    · unfold bkpAllocTake
      rw [if_neg hne, hl]
      exact if_pos ⟨hfree, hord⟩
    · clear_value s'
      refine h.of_one hp hother (Head.not_static (.inr hfree)) (.inl hheld) (by omega)
        (fun e => absurd hheld e) ?_ ?_ ?_ ?_ ?_ ?_
      · have ht := h.tiles.cut (p := p) (m := 2 ^ oo) (Nat.two_pow_pos oo) (by omega)
        rw [hlenp] at ht
        rw [hord']
        unfold skip at ht ⊢
        rwa [Set.union_assoc] at ht
      · rintro q (hq | hq)
        · obtain ⟨hn, hb⟩ := h.raw_body q hq
          refine ⟨hn, ?_⟩
          unfold Body
          rwa [hother q fun e => Head.not_body (.inr (e ▸ hfree)) hb]
        · have hpos := Nat.two_pow_pos oo
          simp only [Set.mem_Ico] at hq
          obtain ⟨hn, hb, -⟩ := h.body hp (.inr hfree) (q := q) (by omega)
            ⟨by omega, by rw [hord]; exact hq.2⟩
          refine ⟨hn, ?_⟩
          unfold Body
          rwa [hother q (by omega)]
      · intro i him
        rw [hpools]
        split_ifs
        · exact (h.nodup k hk).erase _
        · exact h.nodup i him
      · intro i him r
        have hm := h.mem_list i him r
        have horder : r ≠ p → s'.order r = s.order r := by
          intro hr
          unfold Buddy.order
          rw [hother r hr]
        rw [hfree', hpools]
        split_ifs with hik
        · subst hik
          rw [Mempool.unlink_list, (h.nodup i him).mem_erase_iff, hm]
          grind
        · grind
      · intro i him
        rw [hpools]
        split_ifs with hik
        · exact Mempool.unlink_count hcount hin
        · exact h.count i him
      · intro i
        rw [hpools]
        split_ifs with hik
        · rw [hik]
          rfl
        · rfl

/-- An uncovered body page `p` became a held head of order `i`, and nothing else
changed. -/
structure Carved (c : Layout) (s s' : Buddy) (i p : ℕ) : Prop where
  body : s.Body c p
  held' : s'.HeldHead p
  order' : s'.order p = i
  type' : (s'.pages p).pgtype = (s.pages p).pgtype
  other : ∀ r, r ≠ p → s'.pages r = s.pages r
  pools : s'.orderPools = s.orderPools

theorem carve_spec {s : Buddy} {raw : Set ℕ} {i p : ℕ} (h : Inv c s raw) (hi : i < c.maxOrder)
    (hraw : Set.Ico p (p + 2 ^ i) ⊆ raw) :
    ∃ s', bkpAllocCarve c s p i = some s' ∧ Carved c s s' i p ∧
      Inv c s' (raw \ Set.Ico p (p + 2 ^ i)) := by
  have hpos := Nat.two_pow_pos i
  obtain ⟨hp, hbody⟩ := h.raw_body p (hraw ⟨le_rfl, by omega⟩)
  have hend := (h.raw_body (p + 2 ^ i - 1) (hraw ⟨by omega, by omega⟩)).1
  set s' := s.setPage p { s.pages p with buddyOrder := i, buddyFlags := flagHead } with hs'
  have hother : ∀ r, r ≠ p → s'.pages r = s.pages r := by
    intro r hr
    simp [hs', hr]
  have hheld : s'.HeldHead p := by simp [hs', HeldHead, Pageframe.Freeable]
  have hord' : s'.order p = i := by simp [hs', Buddy.order]
  have htype' : (s'.pages p).pgtype = (s.pages p).pgtype := by simp [hs']
  have hpools : s'.orderPools = s.orderPools := rfl
  refine ⟨s', if_pos hbody, ⟨hbody, hheld, hord', htype', hother, hpools⟩, ?_⟩
  clear_value s'
  refine h.of_one hp hother hbody.not_static (.inl hheld) (by omega)
    (fun e => absurd hheld e) ?_ ?_ ?_ ?_ ?_ ?_
  · have ht := h.tiles.carve (p := p) (m := 2 ^ i) hpos (by omega)
      (hraw.trans Set.subset_union_right)
    rw [hord']
    have hstatic : ∀ q ∈ Set.Ico p (p + 2 ^ i), ¬ s.Static q :=
      fun q hq => (h.raw_body q (hraw hq)).2.not_static
    have hskip : s.skip (raw \ Set.Ico p (p + 2 ^ i)) = s.skip raw \ Set.Ico p (p + 2 ^ i) := by
      ext q
      simp only [skip, Set.mem_union, Set.mem_sdiff, Set.mem_ofPred_eq]
      have := hstatic q
      tauto
    rwa [hskip]
  · rintro q ⟨hq, hq'⟩
    obtain ⟨hn, hb⟩ := h.raw_body q hq
    refine ⟨hn, ?_⟩
    unfold Body
    rwa [hother q (by rintro rfl; exact hq' ⟨le_rfl, by omega⟩)]
  · rw [hpools]
    exact h.nodup
  · intro j hj r
    rw [hpools, h.mem_list j hj r]
    by_cases hr : r = p
    · subst hr
      refine iff_of_false (fun e => Head.not_body (.inr e.2.1) hbody) fun e => ?_
      exact e.2.1.not_held hheld
    · unfold FreeHead Buddy.order
      rw [hother r hr]
  · rw [hpools]
    exact h.count
  · intro j
    rw [hpools]

/-- The held block `p` of order `k` became free, and nothing else changed. -/
structure Inserted (s s' : Buddy) (k p : ℕ) : Prop where
  held : s.HeldHead p
  order : s.order p = k
  free' : s'.FreeHead p
  order' : s'.order p = k
  type' : (s'.pages p).pgtype = (s.pages p).pgtype
  other : ∀ r, r ≠ p → s'.pages r = s.pages r

theorem insert_spec {s : Buddy} {raw : Set ℕ} {k p : ℕ} (h : Inv c s raw) (hp : p < c.pageNums)
    (hheld : s.HeldHead p) (htype : (s.pages p).pgtype = .buddyAllocator)
    (hord : s.order p = k) :
    ∃ s', bkpFreeInsert s p k = some s' ∧ Inserted s s' k p ∧ Inv c s' raw := by
  have hk : k < c.maxOrder := hord ▸ h.order_lt p hp (.inl hheld)
  have hflags : (s.pages p).buddyFlags = flagHead := hheld
  set s' := (s.setPage p { s.pages p with buddyFlags := flagHead ||| flagFree }).setPool k
    ((s.orderPools k).addTail p) with hs'
  have hother : ∀ r, r ≠ p → s'.pages r = s.pages r := by
    intro r hr
    simp [hs', hr]
  have hfree : s'.FreeHead p := by simp [hs', FreeHead, Pageframe.Infrlist]
  have hord' : s'.order p = k := by simpa [hs', Buddy.order] using hord
  have htype' : (s'.pages p).pgtype = (s.pages p).pgtype := by simp [hs']
  have hpools : ∀ i, s'.orderPools i =
      if i = k then (s.orderPools k).addTail p else s.orderPools i := by simp [hs']
  have hnin : p ∉ (s.orderPools k).list := by
    intro hin
    exact ((h.mem_list k hk p).1 hin).2.1.not_held hheld
  refine ⟨s', ?_, ⟨hheld, hord, hfree, hord', htype', hother⟩, ?_⟩
  · unfold bkpFreeInsert
    rw [hflags]
    exact if_pos ⟨htype, by decide⟩
  · clear_value s'
    refine h.of_one hp hother (Head.not_static (.inl hheld)) (.inr hfree) (by omega)
      (fun _ => htype'.trans htype) ?_ ?_ ?_ ?_ ?_ ?_
    · have hlen : Function.update (s.len c) p (2 ^ s'.order p) = s.len c := by
        rw [hord', ← hord, ← Inv.len_eq p hp (.inl hheld), Function.update_eq_self]
      rw [hlen]
      exact h.tiles
    · intro q hq
      obtain ⟨hn, hb⟩ := h.raw_body q hq
      refine ⟨hn, ?_⟩
      unfold Body
      rwa [hother q fun e => Head.not_body (.inl (e ▸ hheld)) hb]
    · intro i him
      rw [hpools]
      split_ifs
      · rw [Mempool.addTail_list, ← List.concat_eq_append]
        exact (h.nodup k hk).concat hnin
      · exact h.nodup i him
    · intro i him r
      have hm := h.mem_list i him r
      rw [hpools]
      by_cases hr : r = p
      · subst hr
        split_ifs with hik <;> grind [Mempool.addTail_list]
      · unfold FreeHead Buddy.order
        rw [hother r hr]
        split_ifs with hik
        · subst hik
          rw [Mempool.addTail_list, List.mem_append, List.mem_singleton, or_iff_left hr]
          exact hm
        · exact hm
    · intro i him
      rw [hpools]
      split_ifs with hik
      · exact Mempool.addTail_count (h.count k hk)
      · exact h.count i him
    · intro i
      rw [hpools]
      split_ifs with hik
      · rw [hik]
        rfl
      · rfl

end AcoOs
