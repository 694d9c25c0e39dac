/-
The pools right after boot.

`buddy_module_init` frees the pages of the range one by one from the left, and
`bkp_free` merges each with the blocks before it: the free blocks count the pages
in binary.  After `m` pages the blocks below the top order are the binary digits of
`m`, the largest on the left, and what does not fit a digit is in blocks of the top
order (`BootBlock`).

`boot_heads` says where the free blocks are when boot is over and `boot_rest` how
many each pool has.
-/
import AcoOs.BuddyRun

namespace AcoOs

open Tiling Buddy Machine

variable {c : Layout}

/-! ### Counting pages in binary -/

/-- After `m` pages there is a block of order `k` at offset `q`: below the top order it
is the one whose pages are the digit `2 ^ k` of `m`. -/
def BootBlock (maxOrder m k q : ℕ) : Prop :=
  if k + 1 = maxOrder then 2 ^ k ∣ q ∧ q + 2 ^ k ≤ m
  else 2 ^ (k + 1) ∣ q ∧ q + 2 ^ k ≤ m ∧ m < q + 2 ^ (k + 1)

namespace BootBlock

variable {maxOrder m k j q r : ℕ}

/-- A multiple of `d` is not strictly between two neighbouring multiples of `d`. -/
theorem eq_of_dvd {d a b : ℕ} (ha : d ∣ a) (hb : d ∣ b) (h1 : a ≤ b) (h2 : b < a + d) :
    a = b := by
  by_contra hne
  have := Nat.le_of_dvd (by omega) (Nat.dvd_sub hb ha)
  omega

/-- No block ends past the pages that were counted. -/
theorem end_le (h : BootBlock maxOrder m k q) : q + 2 ^ k ≤ m := by
  unfold BootBlock at h
  split_ifs at h
  · exact h.2
  · exact h.2.1

/-- The digits below the first zero of `m` are all carried away. -/
theorem not_of_lt (hj : j < k) (hk : k < maxOrder) (hm : 2 ^ k ∣ m + 1) :
    ¬ BootBlock maxOrder (m + 1) j r := by
  have hne : j + 1 ≠ maxOrder := by omega
  have hd : 2 ^ (j + 1) ∣ m + 1 := (Nat.pow_dvd_pow 2 hj).trans hm
  have hpos := Nat.two_pow_pos j
  unfold BootBlock
  rw [if_neg hne]
  rintro ⟨h1, h2, h3⟩
  have := eq_of_dvd h1 hd (by omega) h3
  omega

/-- The block before a block of order `k` that ends the counted pages. -/
theorem bef_iff (hk : k + 1 < maxOrder) (hq : 2 ^ k ∣ q) (hm : q + 2 ^ k = m + 1)
    (hle : 2 ^ k ≤ q) : BootBlock maxOrder m k (q - 2 ^ k) ↔ ¬ 2 ^ (k + 1) ∣ q := by
  have hs : 2 ^ (k + 1) = 2 ^ k + 2 ^ k := by ring
  have hpos := Nat.two_pow_pos k
  obtain ⟨a, rfl⟩ := hq
  unfold BootBlock
  rw [if_neg (by omega)]
  constructor
  · rintro ⟨h1, -, -⟩ h2
    have h3 : 2 ^ (k + 1) ∣ 2 ^ k := by
      have := Nat.dvd_sub h2 h1
      rwa [Nat.sub_sub_self hle] at this
    have := Nat.le_of_dvd hpos h3
    omega
  · intro h
    refine ⟨?_, by omega, by omega⟩
    rcases Nat.even_or_odd' a with ⟨b, rfl | rfl⟩
    · exact absurd ⟨b, by ring⟩ h
    · refine ⟨b, ?_⟩
      have : 2 ^ k * (2 * b + 1) = 2 ^ (k + 1) * b + 2 ^ k := by ring
      omega

/-- Below the top order there is at most one block of each order. -/
theorem unique (hk : k + 1 ≠ maxOrder) (hq : BootBlock maxOrder m k q)
    (hr : BootBlock maxOrder m k r) : q = r := by
  have hpos := Nat.two_pow_pos k
  have hs : 2 ^ (k + 1) = 2 ^ k + 2 ^ k := by ring
  unfold BootBlock at hq hr
  rw [if_neg hk] at hq hr
  rcases Nat.le_total q r with h | h
  · exact eq_of_dvd hq.1 hr.1 h (by omega)
  · exact (eq_of_dvd hr.1 hq.1 h (by omega)).symm

/-- Counting one page more: the digits below `k` are carried into the block `q`. -/
theorem succ_iff (hj : j < maxOrder) (hk : k < maxOrder) (hq : 2 ^ k ∣ q)
    (hm : q + 2 ^ k = m + 1) (hdvd : k + 1 < maxOrder → 2 ^ (k + 1) ∣ q) :
    BootBlock maxOrder (m + 1) j r ↔ k ≤ j ∧ BootBlock maxOrder m j r ∨ j = k ∧ r = q := by
  have hs : ∀ i : ℕ, 2 ^ (i + 1) = 2 ^ i + 2 ^ i := fun i => by ring
  have hpos := Nat.two_pow_pos k
  have hposj := Nat.two_pow_pos j
  have hdm : 2 ^ k ∣ m + 1 := hm ▸ hq.add (dvd_refl _)
  rcases lt_trichotomy j k with h | rfl | h
  · refine iff_of_false (not_of_lt h hk hdm) ?_
    rintro (⟨h1, -⟩ | ⟨h1, -⟩) <;> omega
  · simp only [le_refl, true_and]
    unfold BootBlock
    split_ifs with htop
    · constructor
      · rintro ⟨h1, h2⟩
        by_cases h3 : r + 2 ^ j ≤ m
        · exact .inl ⟨h1, h3⟩
        · exact .inr (eq_of_dvd h1 hq (by omega) (by omega))
      · rintro (⟨h1, h2⟩ | rfl)
        · exact ⟨h1, by omega⟩
        · exact ⟨hq, by omega⟩
    · have hq' := hdvd (by omega)
      have := hs j
      constructor
      · rintro ⟨h1, h2, h3⟩
        exact .inr (eq_of_dvd h1 hq' (by omega) (by omega))
      · rintro (⟨h1, h2, h3⟩ | rfl)
        · have := eq_of_dvd h1 hq' (by omega) (by omega)
          omega
        · exact ⟨hq', by omega, by omega⟩
  · -- no multiple of `2 ^ (k + 1)` is `m + 1`
    have hq' := hdvd (by omega)
    have hsk := hs k
    have hsj := hs j
    have hno : ∀ x, 2 ^ (k + 1) ∣ x → x ≠ m + 1 := by
      intro x hx he
      have := eq_of_dvd hq' hx (by omega) (by omega)
      omega
    have hdj : 2 ^ (k + 1) ∣ 2 ^ j := Nat.pow_dvd_pow 2 h
    have hne : ¬ (j = k ∧ r = q) := by omega
    simp only [hne, or_false, h.le, true_and]
    unfold BootBlock
    split_ifs with htop
    · refine and_congr_right fun h1 => ?_
      have := hno (r + 2 ^ j) ((hdj.trans h1).add hdj)
      omega
    · refine and_congr_right fun h1 => ?_
      have h1' : 2 ^ (k + 1) ∣ r := (Nat.pow_dvd_pow 2 (by omega)).trans h1
      have := hno (r + 2 ^ j) (h1'.add hdj)
      have := hno (r + 2 ^ (j + 1)) (h1'.add (hdj.trans (Nat.pow_dvd_pow 2 (by omega))))
      omega

end BootBlock

/-! ### The loop of `buddy_module_init` -/

/-- The free blocks are those of the binary counter after `m` pages, apart from the
digits below `k`. -/
def BootHeads (c : Layout) (R : FreeRange c) (s : Buddy) (m k : ℕ) : Prop :=
  ∀ j < c.maxOrder, ∀ p < c.pageNums, (s.FreeHead p ∧ s.order p = j ↔
    k ≤ j ∧ ∃ q, p = R.start + q ∧ BootBlock c.maxOrder m j q)

/-- The block being freed while page `m` is counted: all digits below its order have
been carried into it. -/
structure BootCarry (c : Layout) (R : FreeRange c) (s : Buddy) (m k q : ℕ) : Prop where
  inv : Inv c s ∅
  lt : R.start + q < c.pageNums
  held : s.HeldHead (R.start + q)
  type : (s.pages (R.start + q)).pgtype = .buddyAllocator
  order : s.order (R.start + q) = k
  dvd : 2 ^ k ∣ q
  end_eq : q + 2 ^ k = m + 1
  heads : BootHeads c R s m k

namespace BootCarry

variable {R : FreeRange c} {s s' : Buddy} {m k q : ℕ}

/-- A carry: the block joins the block of the same order before it. -/
theorem merge (b : BootCarry c R s m k q) (hk : k + 1 < c.maxOrder) {p : ℕ}
    (h : Merged c s s' k (R.start + q) p) :
    ∃ q', p = R.start + q' ∧ BootCarry c R s' m (k + 1) q' := by
  have hpos := Nat.two_pow_pos k
  have hs : 2 ^ (k + 1) = 2 ^ k + 2 ^ k := by ring
  obtain ⟨hmoved, hinv, hord⟩ := h.moved b.inv b.type
  obtain ⟨lo, hi, linked, j, rfl, hne, hp, rfl⟩ := h.exists_join
  have hlo := j.lo_lt.trans j.hi_lt
  -- nothing behind the block is free yet
  have hhi : R.start + q = hi ∧ linked = p := by
    rcases j.linked_mem with ⟨h1, -⟩ | ⟨h1, -⟩ <;> rcases hp with h2 | h2
    · exact absurd (h1.trans h2.symm) hne
    · exact ⟨h2, h1⟩
    · have hf := (b.heads k (by omega) hi j.hi_lt).1 ⟨h1 ▸ j.linked_free, j.order_hi⟩
      obtain ⟨-, r, hr, hb⟩ := hf
      have := hb.end_le
      have := j.hi_eq
      have := b.end_eq
      omega
    · exact absurd (h1.trans h2.symm) hne
  obtain ⟨h1, h2⟩ := hhi
  have hheq := j.hi_eq
  obtain ⟨-, r, hr, hb⟩ := (b.heads k (by omega) p hlo).1 ⟨h2 ▸ j.linked_free, j.order_lo⟩
  have hrq : r = q - 2 ^ k := by omega
  have hle : 2 ^ k ≤ q := by omega
  have hdvd : 2 ^ (k + 1) ∣ r := by
    unfold BootBlock at hb
    rw [if_neg (by omega)] at hb
    exact hb.1
  have hend := b.end_eq
  refine ⟨r, hr, hinv, hr ▸ hlo, hr ▸ hmoved.held', hr ▸ hmoved.type', hr ▸ hord, hdvd,
    by omega, fun i hi' x hx => ?_⟩
  have hold := b.heads i hi' x hx
  rw [j.freeHead_iff]
  constructor
  · rintro ⟨⟨hf, hxl⟩, ho⟩
    have hpages := (hmoved.free_sub x ((j.freeHead_iff x).2 ⟨hf, hxl⟩)).2
    unfold Buddy.order at ho
    rw [hpages] at ho
    obtain ⟨hki, y, hy, hby⟩ := hold.1 ⟨hf, ho⟩
    refine ⟨?_, y, hy, hby⟩
    by_contra hlt
    have hik : i = k := by omega
    subst hik
    have := hby.unique (by omega) hb
    omega
  · rintro ⟨hki, y, hy, hby⟩
    obtain ⟨hf, ho⟩ := hold.2 ⟨by omega, y, hy, hby⟩
    have hxl : x ≠ linked := by
      rintro rfl
      rw [h2, j.order_lo] at ho
      omega
    refine ⟨⟨hf, hxl⟩, ?_⟩
    have hpages := (hmoved.free_sub x ((j.freeHead_iff x).2 ⟨hf, hxl⟩)).2
    unfold Buddy.order at ho ⊢
    rwa [hpages]

/-- The carry ends where the digit is zero. -/
theorem dvd_of_noNeighbour (b : BootCarry c R s m k q) (hk : k + 1 < c.maxOrder)
    (hno : NoNeighbour c s k (R.start + q)) : 2 ^ (k + 1) ∣ q := by
  have hpos := Nat.two_pow_pos k
  by_contra hnd
  have hle : 2 ^ k ≤ q := by
    rcases Nat.eq_zero_or_pos q with rfl | hq
    · exact absurd (dvd_zero _) hnd
    · exact Nat.le_of_dvd hq b.dvd
  have hb := (BootBlock.bef_iff hk b.dvd b.end_eq hle).2 hnd
  have hlt := b.lt
  obtain ⟨hf, ho⟩ := (b.heads k (by omega) (R.start + (q - 2 ^ k)) (by omega)).2
    ⟨le_rfl, _, rfl, hb⟩
  have := (hno _ (by omega) hf ho).1
  omega

/-- The merge loop carries as far as it can. -/
theorem loop : ∀ (n : ℕ) {s : Buddy} {k q : ℕ}, BootCarry c R s m k q →
    n + k + 1 = c.maxOrder → ∃ k' q' s', bkpFreeLoop c n s (R.start + q) k =
      some (R.start + q', k', s') ∧ BootCarry c R s' m k' q' ∧
      (k' + 1 < c.maxOrder → 2 ^ (k' + 1) ∣ q') := by
  intro n
  induction n with
  | zero =>
    intro s k q b hk
    exact ⟨k, q, s, rfl, b, fun hlt => by omega⟩
  | succ n ih =>
    intro s k q b hk
    rcases merge_spec b.inv b.lt b.held b.type b.order (by omega) with
      ⟨p, s', hm, hmerged⟩ | ⟨hm, hno⟩
    · obtain ⟨q', rfl, b'⟩ := b.merge (by omega) hmerged
      obtain ⟨k'', q'', s'', hl, hres⟩ := ih b' (by omega)
      refine ⟨k'', q'', s'', ?_, hres⟩
      rw [bkpFreeLoop, hm]
      exact hl
    · refine ⟨k, q, s, ?_, b, fun hlt => b.dvd_of_noNeighbour hlt hno⟩
      rw [bkpFreeLoop, hm]

/-- Freeing the page `m` counts it. -/
theorem free (b : BootCarry c R s m 0 q) (hf : bkpFree c s (R.start + q) = some s') :
    BootHeads c R s' (m + 1) 0 := by
  obtain ⟨k', q', s₁, hl, b', hdvd⟩ := b.loop (c.maxOrder - 1) (by
    have := c.maxOrder_pos
    omega)
  have hk' := b'.order ▸ b'.inv.order_lt _ b'.lt (.inl b'.held)
  have hentry : bkpFreeEntry c s (R.start + q) = some 0 := by
    have h := b.order
    unfold Buddy.order at h
    unfold bkpFreeEntry
    rw [h]
    exact if_pos ⟨b.lt, b.type, b.held, c.maxOrder_pos⟩
  obtain ⟨s₂, hins, i, -⟩ := insert_spec b'.inv b'.lt b'.held b'.type b'.order
  have hres : bkpFree c s (R.start + q) = some s₂ := by
    unfold bkpFree
    rw [hentry]
    simp only [Nat.sub_zero, hl, hins]
  rw [hres] at hf
  cases hf
  intro j hj p hp
  have hheads := b'.heads j hj p hp
  simp only [Nat.zero_le, true_and,
    BootBlock.succ_iff hj hk' b'.dvd b'.end_eq hdvd]
  by_cases hpq : p = R.start + q'
  · subst hpq
    rw [and_iff_right i.free', i.order']
    constructor
    · rintro rfl
      exact ⟨q', rfl, .inr ⟨rfl, rfl⟩⟩
    · rintro ⟨r, hr, ⟨h1, h2⟩ | ⟨h1, -⟩⟩
      · have := (hheads.2 ⟨h1, r, hr, h2⟩).1
        exact absurd b'.held this.not_held
      · exact h1.symm
  · have hsame : s'.FreeHead p ∧ s'.order p = j ↔ s₁.FreeHead p ∧ s₁.order p = j := by
      unfold FreeHead Buddy.order
      rw [i.other p hpq]
    rw [hsame, hheads]
    constructor
    · rintro ⟨h1, r, h2, h3⟩
      exact ⟨r, h2, .inl ⟨h1, h3⟩⟩
    · rintro ⟨r, h2, ⟨h1, h3⟩ | ⟨-, rfl⟩⟩
      · exact ⟨h1, r, h2, h3⟩
      · exact absurd h2 hpq

end BootCarry

/-- The free blocks after the pages below `i` have been looked at. -/
theorem initFree_heads (R : FreeRange c) : ∀ i ≤ c.pageNums, ∀ s,
    initFree c i R.boot = some s →
      BootHeads c R s (min i (R.start + R.count) - R.start) 0 := by
  intro i
  induction i with
  | zero =>
    intro _ s hs
    cases hs
    intro j hj p hp
    refine iff_of_false (fun h => R.freeHead_boot p h.1) ?_
    rintro ⟨-, q, -, hb⟩
    have := hb.end_le
    have := Nat.two_pow_pos j
    omega
  | succ i ih =>
    intro hi s hs
    obtain ⟨s₀, hs₀, b⟩ := initFree_spec R i (by omega)
    have hheads := ih (by omega) s₀ hs₀
    rw [initFree, hs₀] at hs
    dsimp only at hs
    have hpage := b.untouched i le_rfl
    split_ifs at hs with hf
    · have hin : R.start ≤ i ∧ i < R.start + R.count := ((b.held_iff i (by omega)).1 hf).1
      have hm : min i (R.start + R.count) - R.start = i - R.start := by omega
      have hm' : min (i + 1) (R.start + R.count) - R.start = i - R.start + 1 := by omega
      have hi' : R.start + (i - R.start) = i := by omega
      rw [hm] at hheads
      rw [hm']
      have carry : BootCarry c R s₀ (i - R.start) 0 (i - R.start) :=
        ⟨b.inv, by omega, by rwa [hi'], by rw [hi', hpage]; rfl,
          by rw [Buddy.order, hi', hpage]; rfl, one_dvd _, rfl, hheads⟩
      exact carry.free (by rwa [hi'])
    · cases hs
      have hnin : ¬ (R.start ≤ i ∧ i < R.start + R.count) :=
        fun h => hf ((b.held_iff i (by omega)).2 ⟨h, le_rfl⟩)
      have hm : min (i + 1) (R.start + R.count) - R.start =
          min i (R.start + R.count) - R.start := by omega
      rwa [hm]

/-- The free blocks when boot is over. -/
theorem boot_heads {R : FreeRange c} {s : Buddy} (h : buddyModuleInit c R.pages = some s) :
    BootHeads c R s R.count 0 := by
  have hle := R.le
  have hm : min c.pageNums (R.start + R.count) - R.start = R.count := by omega
  have := initFree_heads R c.pageNums le_rfl s h
  rwa [hm] at this

/-- The number of blocks of order `k` that boot makes of `n` pages. -/
def bootRest (maxOrder n k : ℕ) : ℕ :=
  if k + 1 = maxOrder then n / 2 ^ k else n / 2 ^ k % 2

/-- The blocks of one order, as offsets in the range. -/
theorem card_bootBlock {M n k : ℕ} (F : Finset ℕ) (hF : ∀ q, q ∈ F ↔ BootBlock M n k q) :
    F.card = bootRest M n k := by
  have hpos := Nat.two_pow_pos k
  have hs : 2 ^ (k + 1) = 2 * 2 ^ k := by ring
  unfold bootRest
  split_ifs with htop
  · have himage : F = (Finset.range (n / 2 ^ k)).image fun a => 2 ^ k * a := by
      ext q
      rw [hF, Finset.mem_image, BootBlock, if_pos htop]
      constructor
      · rintro ⟨⟨a, rfl⟩, h⟩
        refine ⟨a, Finset.mem_range.2 ?_, rfl⟩
        rw [← Nat.succ_le_iff, Nat.le_div_iff_mul_le hpos]
        calc (a + 1) * 2 ^ k = 2 ^ k * a + 2 ^ k := by ring
          _ ≤ n := h
      · rintro ⟨a, ha, rfl⟩
        rw [Finset.mem_range, ← Nat.succ_le_iff, Nat.le_div_iff_mul_le hpos] at ha
        refine ⟨dvd_mul_right _ _, ?_⟩
        calc 2 ^ k * a + 2 ^ k = (a + 1) * 2 ^ k := by ring
          _ ≤ n := ha
    rw [himage, Finset.card_image_of_injective _ (mul_right_injective₀ hpos.ne'),
      Finset.card_range]
  · have hle : F.card ≤ 1 := by
      refine Finset.card_le_one.2 fun a ha b hb => ?_
      exact ((hF a).1 ha).unique htop ((hF b).1 hb)
    have hdiv : n / 2 ^ (k + 1) = n / 2 ^ k / 2 := by
      rw [hs, mul_comm, Nat.div_div_eq_div_mul]
    have hmod := Nat.div_add_mod n (2 ^ (k + 1))
    have hlt := Nat.mod_lt n (Nat.two_pow_pos (k + 1))
    have hmem : (∃ q, q ∈ F) ↔ n / 2 ^ k % 2 = 1 := by
      constructor
      · rintro ⟨q, hq⟩
        obtain ⟨⟨a, rfl⟩, h1, h2⟩ : 2 ^ (k + 1) ∣ q ∧ q + 2 ^ k ≤ n ∧ n < q + 2 ^ (k + 1) := by
          have := (hF q).1 hq
          rwa [BootBlock, if_neg htop] at this
        have : n / 2 ^ k = 2 * a + 1 := by
          refine Nat.div_eq_of_lt_le ?_ ?_
          · calc (2 * a + 1) * 2 ^ k = 2 ^ (k + 1) * a + 2 ^ k := by ring
              _ ≤ n := h1
          · calc n < 2 ^ (k + 1) * a + 2 ^ (k + 1) := h2
              _ = (2 * a + 1 + 1) * 2 ^ k := by ring
        omega
      · intro hodd
        refine ⟨2 ^ (k + 1) * (n / 2 ^ (k + 1)), (hF _).2 ?_⟩
        rw [BootBlock, if_neg htop]
        refine ⟨dvd_mul_right _ _, ?_, by omega⟩
        have hn : n / 2 ^ k = 2 * (n / 2 ^ (k + 1)) + 1 := by omega
        have := Nat.div_mul_le_self n (2 ^ k)
        rw [hn] at this
        calc 2 ^ (k + 1) * (n / 2 ^ (k + 1)) + 2 ^ k
            = (2 * (n / 2 ^ (k + 1)) + 1) * 2 ^ k := by ring
          _ ≤ n := this
    have := Nat.mod_lt (n / 2 ^ k) (by norm_num : 0 < 2)
    rcases Nat.eq_zero_or_pos F.card with h0 | h1
    · have : ¬ n / 2 ^ k % 2 = 1 := fun h => by
        obtain ⟨q, hq⟩ := hmem.2 h
        rw [Finset.card_eq_zero.1 h0] at hq
        exact absurd hq (Finset.notMem_empty q)
      omega
    · have := hmem.1 (Finset.card_pos.1 h1)
      omega

/-- How many blocks each pool has when boot is over: the binary digits of the number of
pages, with the rest in blocks of the top order. -/
theorem boot_rest {R : FreeRange c} {s : Buddy} (h : buddyModuleInit c R.pages = some s)
    {k : ℕ} (hk : k < c.maxOrder) :
    (s.orderPools k).restBlockNum = bootRest c.maxOrder R.count k := by
  have hle := R.le
  have hinv := (runInv_of_reachable (.of_init (M := buddyRuns c R) (s := ⟨s, ∅⟩) ⟨h, rfl⟩)).inv
  set F := (s.orderPools k).list.toFinset.image fun p => p - R.start with hF
  have hmem : ∀ p ∈ (s.orderPools k).list.toFinset,
      ∃ q, p = R.start + q ∧ BootBlock c.maxOrder R.count k q := by
    intro p hp
    obtain ⟨h1, h2⟩ := (hinv.mem_list k hk p).1 (List.mem_toFinset.1 hp)
    exact ((boot_heads h k hk p h1).1 h2).2
  have hcard : F.card = (s.orderPools k).list.length := by
    rw [hF, Finset.card_image_of_injOn, List.toFinset_card_of_nodup (hinv.nodup k hk)]
    intro p hp p' hp' he
    obtain ⟨q, hq, -⟩ := hmem p hp
    obtain ⟨q', hq', -⟩ := hmem p' hp'
    dsimp only at he
    omega
  rw [hinv.count k hk, ← hcard, card_bootBlock F]
  intro q
  rw [hF, Finset.mem_image]
  constructor
  · rintro ⟨p, hp, rfl⟩
    obtain ⟨q, hq, hb⟩ := hmem p hp
    have : p - R.start = q := by omega
    rwa [this]
  · intro hb
    have hpos := Nat.two_pow_pos k
    have hend := hb.end_le
    refine ⟨R.start + q, List.mem_toFinset.2 ((hinv.mem_list k hk _).2 ⟨by omega, ?_⟩),
      by omega⟩
    exact (boot_heads h k hk _ (by omega)).2 ⟨Nat.zero_le _, q, rfl, hb⟩

end AcoOs
