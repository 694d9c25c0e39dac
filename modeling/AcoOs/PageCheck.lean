/-
`pages_slfcheck`, the check of the page array after boot.

The check goes through the array once and counts the `BODY` pages behind each `HEAD` page down.  It
looks at the counter only when it meets the next `HEAD` page, and starts with a counter that stands
for no block.

* **`pages_slfcheck_sound_iff`** — in an array that passes, no page has contradictory flags, and the
  blocks are complete just when the things the counter does not see do not occur (`CountsSeen`);
* **`not_pages_slfcheck_sound`** — a `BODY` page alone passes.
-/
import AcoOs.SlabAllocator

namespace AcoOs

variable {c : Layout}

/-! ### The check -/

/-- `meta.buddy_flags & flag` is not zero. -/
def Pageframe.Has (pg : Pageframe) (flag : BitVec 8) : Prop := pg.buddyFlags &&& flag ≠ 0

instance (pg : Pageframe) (flag : BitVec 8) : Decidable (pg.Has flag) :=
  inferInstanceAs (Decidable (_ ≠ _))

/-- The value of `bef_count` before the first `HEAD` page. -/
def noCount : ℤ := -233333

/-- `(1<<order)-1`, an `int`; the shift looks at the low five bits of the order. -/
def bodyCount (order : ℕ) : ℤ := int32 (int32 (2 ^ (order % 32)) - 1)

/-- The body of the loop of `pages_slfcheck`, on `bef_count`; `none` when it returns `-EFAULT`. -/
def slfStep (c : Layout) (pg : Pageframe) (befCount : ℤ) : Option ℤ :=
  if pg.pgtype = .buddyAllocator ∨ pg.pgtype = .slabAllocator then
    if pg.Has flagStatic ∧ pg.buddyFlags ≠ flagStatic then none
    else
      match
        if pg.Has flagHead then
          if pg.Has flagBody ∨ pg.Has flagStatic then none
          else if befCount = noCount then some (bodyCount pg.buddyOrder)
          else if befCount ≠ 0 then none
          else some (bodyCount pg.buddyOrder)
        else some befCount with
      | none => none
      | some befCount =>
        if pg.Has flagBody then
          if pg.buddyFlags ≠ flagBody then none
          else if pg.buddyOrder ≠ c.maxOrder then none
          else some (int32 (befCount - 1))
        else some befCount
  else none

/-- `bef_count` after the first `n` pages. -/
def slfLoop (c : Layout) (pages : ℕ → Pageframe) : ℕ → Option ℤ
  | 0 => some noCount
  | n + 1 =>
    match slfLoop c pages n with
    | none => none
    | some befCount => slfStep c (pages n) befCount

/-- `pages_slfcheck`. -/
def pagesSlfcheck (c : Layout) (pages : ℕ → Pageframe) : ℤ :=
  match slfLoop c pages c.pageNums with
  | none => -efault
  | some _ => 0

/-! ### What it should find out -/

/-- A page is at most one of `HEAD`, `BODY` and `STATIC`, and only a `HEAD` page is `FREE`. -/
def Pageframe.Consistent (pg : Pageframe) : Prop :=
  ¬ (pg.Has flagHead ∧ pg.Has flagBody) ∧ ¬ (pg.Has flagHead ∧ pg.Has flagStatic) ∧
    ¬ (pg.Has flagBody ∧ pg.Has flagStatic) ∧ ¬ (pg.Has flagFree ∧ pg.Has flagBody) ∧
    ¬ (pg.Has flagFree ∧ pg.Has flagStatic)

/-- The pages behind page `i` up to page `e` are `BODY` pages, and page `e` is not. -/
structure BodyRun (c : Layout) (pages : ℕ → Pageframe) (i e : ℕ) : Prop where
  lt : i < e
  le : e ≤ c.pageNums
  body : ∀ j, i < j → j < e → (pages j).Has flagBody
  stop : e < c.pageNums → ¬ (pages e).Has flagBody

/-- Behind every `HEAD` page come the `BODY` pages of its block and no more, and every `BODY` page
is in a block. -/
structure WellBlocked (c : Layout) (pages : ℕ → Pageframe) : Prop where
  head : ∀ i < c.pageNums, (pages i).Has flagHead →
    BodyRun c pages i (i + 2 ^ (pages i).buddyOrder)
  body : ∀ j < c.pageNums, (pages j).Has flagBody →
    ∃ i < j, (pages i).Has flagHead ∧ j < i + 2 ^ (pages i).buddyOrder

/-- What `bef_count` does not see does not occur.  Every `BODY` page has a `HEAD` or `BODY` page
right before it.  Where the `BODY` pages behind a `HEAD` page end at the end of the array, or at a
page that is no `HEAD` page, the block is complete there.  A `HEAD` page has not as many `BODY`
pages too many behind it as make its count the one of no block.  The orders can be shifted by. -/
structure CountsSeen (c : Layout) (pages : ℕ → Pageframe) : Prop where
  stray : ∀ j < c.pageNums, (pages j).Has flagBody →
    ∃ i, j = i + 1 ∧ ((pages i).Has flagHead ∨ (pages i).Has flagBody)
  cut : ∀ i e, (pages i).Has flagHead → BodyRun c pages i e →
    (e = c.pageNums ∨ ¬ (pages e).Has flagHead) → e = i + 2 ^ (pages i).buddyOrder
  surplus : ∀ i e, (pages i).Has flagHead → BodyRun c pages i e →
    e ≠ i + 2 ^ (pages i).buddyOrder + 233333
  order : ∀ i < c.pageNums, (pages i).Has flagHead → (pages i).buddyOrder < 31

/-! ### One page -/

/-- What the flags of a page that passes are. -/
theorem slfStep_flags {pg : Pageframe} {b b' : ℤ} (h : slfStep c pg b = some b') :
    (pg.Has flagStatic → pg.buddyFlags = flagStatic) ∧
      (pg.Has flagBody → pg.buddyFlags = flagBody) ∧
      (pg.Has flagHead → ¬ pg.Has flagBody ∧ ¬ pg.Has flagStatic) := by
  unfold slfStep at h
  grind

theorem slfStep_consistent {pg : Pageframe} {b b' : ℤ} (h : slfStep c pg b = some b') :
    pg.Consistent := by
  obtain ⟨hstatic, hbody, hhead⟩ := slfStep_flags h
  have hfree : ∀ f, pg.buddyFlags = f → flagFree &&& f = 0 → ¬ pg.Has flagFree := by
    rintro f rfl hf hp
    rw [BitVec.and_comm] at hf
    exact hp hf
  refine ⟨fun hp => (hhead hp.1).1 hp.2, fun hp => (hhead hp.1).2 hp.2, fun hp => ?_, fun hp => ?_,
    fun hp => ?_⟩
  · exact absurd ((hstatic hp.2).symm.trans (hbody hp.1)) (by decide)
  · exact hfree _ (hbody hp.2) (by decide) hp.1
  · exact hfree _ (hstatic hp.2) (by decide) hp.1

/-- A `HEAD` page wants the counter to be used up, and starts it again. -/
theorem slfStep_head {pg : Pageframe} {b b' : ℤ} (h : slfStep c pg b = some b')
    (hp : pg.Has flagHead) : (b = noCount ∨ b = 0) ∧ b' = bodyCount pg.buddyOrder := by
  obtain ⟨-, -, hhead⟩ := slfStep_flags h
  obtain ⟨hbody, hstatic⟩ := hhead hp
  unfold slfStep at h
  grind

/-- A `BODY` page counts down. -/
theorem slfStep_body {pg : Pageframe} {b b' : ℤ} (h : slfStep c pg b = some b')
    (hp : pg.Has flagBody) : b' = int32 (b - 1) := by
  obtain ⟨-, -, hhead⟩ := slfStep_flags h
  have hno : ¬ pg.Has flagHead := fun hh => (hhead hh).1 hp
  unfold slfStep at h
  grind

/-! ### All pages -/

section

variable {pages : ℕ → Pageframe}

theorem slfLoop_succ {n : ℕ} {b' : ℤ} (h : slfLoop c pages (n + 1) = some b') :
    ∃ b, slfLoop c pages n = some b ∧ slfStep c (pages n) b = some b' := by
  unfold slfLoop at h
  split at h
  · cases h
  · rename_i b hb
    exact ⟨b, hb, h⟩

/-- Every page before page `n` has been looked at. -/
theorem slfLoop_step {n : ℕ} {b : ℤ} (h : slfLoop c pages n = some b) {i : ℕ} (hi : i < n) :
    ∃ b₁ b₂, slfLoop c pages i = some b₁ ∧ slfLoop c pages (i + 1) = some b₂ ∧
      slfStep c (pages i) b₁ = some b₂ := by
  induction n generalizing b with
  | zero => exact absurd hi (Nat.not_lt_zero i)
  | succ n ih =>
    obtain ⟨b₁, h₁, hs⟩ := slfLoop_succ h
    rcases Nat.lt_succ_iff_lt_or_eq.1 hi with hlt | rfl
    · exact ih h₁ hlt
    · exact ⟨b₁, b, h₁, h, hs⟩

theorem bodyCount_eq {k : ℕ} (hk : k < 31) : bodyCount k = 2 ^ k - 1 := by
  unfold bodyCount
  interval_cases k <;> decide

/-- Behind a `HEAD` page the counter is what is left of its block. -/
theorem slfLoop_run {i e : ℕ} {b : ℤ} (hp : (pages i).Has flagHead)
    (ho : (pages i).buddyOrder < 31) (he : e ≤ c.pageNums) (hlt : i < e)
    (hbody : ∀ j, i < j → j < e → (pages j).Has flagBody) (h : slfLoop c pages e = some b) :
    b = i + 2 ^ (pages i).buddyOrder - e := by
  induction e, hlt using Nat.le_induction generalizing b with
  | base =>
    obtain ⟨b₁, -, hs⟩ := slfLoop_succ h
    rw [(slfStep_head hs hp).2, bodyCount_eq ho]
    push_cast
    ring
  | succ e hle ih =>
    obtain ⟨b₁, hb₁, hs⟩ := slfLoop_succ h
    have hb := ih (by omega) (fun j h1 h2 => hbody j h1 (by omega)) hb₁
    rw [slfStep_body hs (hbody e hle (Nat.lt_succ_self e)), hb]
    have hn := c.pageNums_lt
    have hpow : (2 : ℤ) ^ (pages i).buddyOrder ≤ 2 ^ 30 :=
      pow_le_pow_right₀ (by decide) (by omega)
    have hpos : (0 : ℤ) < 2 ^ (pages i).buddyOrder := by positivity
    unfold int32
    rw [Int.bmod_eq_of_le (by omega) (by omega)]
    push_cast
    ring

/-- Where a `HEAD` page follows, the block is complete, or its counter is that of no block. -/
theorem slfLoop_block {i e : ℕ} {b : ℤ} (h : slfLoop c pages c.pageNums = some b)
    (hp : (pages i).Has flagHead) (ho : (pages i).buddyOrder < 31) (hrun : BodyRun c pages i e)
    (he : e < c.pageNums) (hhead : (pages e).Has flagHead) :
    e = i + 2 ^ (pages i).buddyOrder ∨ e = i + 2 ^ (pages i).buddyOrder + 233333 := by
  obtain ⟨b₁, b₂, hb₁, -, hs⟩ := slfLoop_step h he
  have hb := slfLoop_run hp ho hrun.le hrun.lt hrun.body hb₁
  have hcast : ((2 ^ (pages i).buddyOrder : ℕ) : ℤ) = 2 ^ (pages i).buddyOrder := by push_cast; rfl
  rcases (slfStep_head hs hhead).1 with hno | h0
  · unfold noCount at hno
    omega
  · omega

theorem pagesSlfcheck_eq_zero (h : pagesSlfcheck c pages = 0) :
    ∃ b, slfLoop c pages c.pageNums = some b := by
  unfold pagesSlfcheck at h
  split at h
  · exact absurd h (by decide)
  · exact ⟨_, by assumption⟩

/-! ### Runs of `BODY` pages -/

/-- The `BODY` pages behind a page end somewhere. -/
theorem BodyRun.exists {i k : ℕ} (hlt : i < k) (hk : k ≤ c.pageNums)
    (hbody : ∀ j, i < j → j < k → (pages j).Has flagBody) :
    ∃ e, k ≤ e ∧ BodyRun c pages i e := by
  induction hn : c.pageNums - k generalizing k with
  | zero => exact ⟨k, le_rfl, hlt, hk, hbody, fun h => by omega⟩
  | succ n ih =>
    by_cases hkb : (pages k).Has flagBody
    · obtain ⟨e, hle, he⟩ := ih (k := k + 1) (by omega) (by omega) (fun j h1 h2 => by
        rcases Nat.lt_succ_iff_lt_or_eq.1 h2 with h3 | rfl
        · exact hbody j h1 h3
        · exact hkb) (by omega)
      exact ⟨e, by omega, he⟩
    · exact ⟨k, le_rfl, hlt, hk, hbody, fun _ => hkb⟩

theorem BodyRun.unique {i e e' : ℕ} (h : BodyRun c pages i e) (h' : BodyRun c pages i e') :
    e' = e := by
  rcases lt_trichotomy e e' with hlt | rfl | hlt
  · exact absurd (h'.body e h.lt hlt) (h.stop (lt_of_lt_of_le hlt h'.le))
  · rfl
  · exact absurd (h.body e' h'.lt hlt) (h'.stop (lt_of_lt_of_le hlt h.le))

/-- Without stray `BODY` pages, each has a `HEAD` page before it with only `BODY` pages between. -/
theorem CountsSeen.head_before (h : CountsSeen c pages) {j : ℕ} (hj : j < c.pageNums)
    (hb : (pages j).Has flagBody) :
    ∃ i < j, (pages i).Has flagHead ∧ ∀ m, i < m → m < j → (pages m).Has flagBody := by
  induction j with
  | zero =>
    obtain ⟨i, hi, -⟩ := h.stray 0 hj hb
    omega
  | succ j ih =>
    obtain ⟨i, hi, hprev⟩ := h.stray (j + 1) hj hb
    obtain rfl : i = j := by omega
    rcases hprev with hh | hbp
    · exact ⟨i, Nat.lt_succ_self i, hh, fun m h1 h2 => by omega⟩
    · obtain ⟨i', hlt, hh, hall⟩ := ih (by omega) hbp
      refine ⟨i', by omega, hh, fun m h1 h2 => ?_⟩
      rcases Nat.lt_succ_iff_lt_or_eq.1 h2 with h3 | rfl
      · exact hall m h1 h3
      · exact hbp

theorem CountsSeen.wellBlocked (h : CountsSeen c pages) {b : ℤ}
    (hpass : slfLoop c pages c.pageNums = some b) : WellBlocked c pages := by
  have hrun : ∀ i e, i < c.pageNums → (pages i).Has flagHead → BodyRun c pages i e →
      e = i + 2 ^ (pages i).buddyOrder := by
    intro i e hi hp hrun
    by_cases hnext : e = c.pageNums ∨ ¬ (pages e).Has flagHead
    · exact h.cut i e hp hrun hnext
    · push Not at hnext
      exact (slfLoop_block hpass hp (h.order i hi hp) hrun (lt_of_le_of_ne hrun.le hnext.1)
        hnext.2).resolve_right (h.surplus i e hp hrun)
  refine ⟨fun i hi hp => ?_, fun j hj hb => ?_⟩
  · obtain ⟨e, -, he⟩ := BodyRun.exists (c := c) (Nat.lt_succ_self i) hi
      fun m h1 h2 => absurd h2 (by omega)
    rwa [← hrun i e hi hp he]
  · obtain ⟨i, hlt, hp, hall⟩ := h.head_before hj hb
    obtain ⟨e, hle, he⟩ := BodyRun.exists (c := c) (i := i) (k := j + 1) (by omega) hj
      fun m h1 h2 => by
      rcases Nat.lt_succ_iff_lt_or_eq.1 h2 with h3 | rfl
      · exact hall m h1 h3
      · exact hb
    have := hrun i e (by omega) hp he
    exact ⟨i, hlt, hp, by omega⟩

theorem WellBlocked.countsSeen (h : WellBlocked c pages) : CountsSeen c pages := by
  have hhead : ∀ i e, (pages i).Has flagHead → BodyRun c pages i e →
      e = i + 2 ^ (pages i).buddyOrder := fun i e hp he =>
    (h.head i (lt_of_lt_of_le he.lt he.le) hp).unique he
  refine ⟨fun j hj hb => ?_, fun i e hp he _ => hhead i e hp he, fun i e hp he => ?_,
    fun i hi hp => ?_⟩
  · obtain ⟨i, hlt, hp, hin⟩ := h.body j hj hb
    refine ⟨j - 1, by omega, ?_⟩
    rcases Nat.lt_or_ge i (j - 1) with h1 | h1
    · exact .inr ((h.head i (by omega) hp).body (j - 1) h1 (by omega))
    · obtain rfl : i = j - 1 := by omega
      exact .inl hp
  · have := hhead i e hp he
    omega
  · -- a block of `2 ^ 31` pages does not fit in the array
    have hle := (h.head i hi hp).le
    have hn := c.pageNums_lt
    by_contra hlt
    have hpow : 2 ^ 31 ≤ 2 ^ (pages i).buddyOrder := Nat.pow_le_pow_right (by decide) (by omega)
    omega

end

/-- In an array that passes `pages_slfcheck` no page has contradictory flags, and the blocks are
complete just when what the counter does not see does not occur. -/
theorem pages_slfcheck_sound_iff (c : Layout) (pages : ℕ → Pageframe)
    (h : pagesSlfcheck c pages = 0) :
    (∀ i < c.pageNums, (pages i).Consistent) ∧ (WellBlocked c pages ↔ CountsSeen c pages) := by
  obtain ⟨b, hb⟩ := pagesSlfcheck_eq_zero h
  refine ⟨fun i hi => ?_, fun hw => hw.countsSeen, fun hs => hs.wellBlocked hb⟩
  obtain ⟨b₁, b₂, -, -, hs⟩ := slfLoop_step hb hi
  exact slfStep_consistent hs

/-- A page of the kernel, a free block of two pages, and a page in use. -/
def fourPages : ℕ → Pageframe
  | 0 => ⟨.buddyAllocator, flagStatic, 0, 0⟩
  | 1 => ⟨.buddyAllocator, flagHead ||| flagFree, 1, 0⟩
  | 2 => ⟨.buddyAllocator, flagBody, 3, 0⟩
  | _ => ⟨.slabAllocator, flagHead, 0, 0⟩

theorem pages_slfcheck_sound_iff_four_pages :
    let c := Layout.ofPages 3 4 (by decide) (by decide)
    pagesSlfcheck c fourPages = 0 ∧ (∀ i < c.pageNums, (fourPages i).Consistent) ∧
      (WellBlocked c fourPages ↔ CountsSeen c fourPages) :=
  ⟨by decide, pages_slfcheck_sound_iff _ _ (by decide)⟩

/-- A `BODY` page alone passes. -/
theorem not_pages_slfcheck_sound :
    ¬ ∀ (c : Layout) (pages : ℕ → Pageframe), pagesSlfcheck c pages = 0 →
      (∀ i < c.pageNums, (pages i).Consistent) ∧ WellBlocked c pages := by
  intro h
  obtain ⟨-, hw⟩ := h (Layout.ofPages 1 1 (by decide) (by decide))
    (fun _ => ⟨.buddyAllocator, flagBody, 1, 0⟩) (by decide)
  obtain ⟨i, hi, -⟩ := hw.body 0 (by decide) (by decide)
  exact absurd hi (Nat.not_lt_zero i)

end AcoOs
