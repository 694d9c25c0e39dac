/-
Tilings of an initial segment of `ℕ` by intervals.

A tiling is given by the function `len` that maps the first point of a tile to
its length and every other point to `0`; the points of `skip` belong to no tile.
`Tiles n len skip` says that the tiles lie below `n`, do not overlap, and cover
everything below `n` outside `skip`.

* `Tiles.join`, `Tiles.cut`, `Tiles.carve`: two neighbouring tiles become one, a
  tile gives up its right end, a new tile is cut out of the skipped points;
* `Tiles.unique`: every point lies in at most one tile.
-/
import Mathlib

namespace Tiling

/-- The tiles `[p, p + len p)` cover exactly the points below `n` outside `skip`,
without overlap. -/
structure Tiles (n : ℕ) (len : ℕ → ℕ) (skip : Set ℕ) : Prop where
  fits : ∀ p, 0 < len p → p + len p ≤ n
  alone : ∀ p q, p < q → q < p + len p → len q = 0
  avoid : ∀ p q, p ≤ q → q < p + len p → q ∉ skip
  cover : ∀ q < n, q ∉ skip → ∃ p, p ≤ q ∧ q < p + len p

namespace Tiles

variable {n : ℕ} {len : ℕ → ℕ} {skip : Set ℕ}

theorem le_of_lt (t : Tiles n len skip) {p q : ℕ} (hq : 0 < len q) (h : p < q) :
    p + len p ≤ q := by
  by_contra hlt
  have := t.alone p q h (by omega)
  omega

/-- A point lies in at most one tile. -/
theorem unique (t : Tiles n len skip) {p q x : ℕ} (hp : p ≤ x) (hp' : x < p + len p)
    (hq : q ≤ x) (hq' : x < q + len q) : p = q := by
  rcases lt_trichotomy p q with h | h | h
  · have := t.le_of_lt (by omega) h
    omega
  · exact h
  · have := t.le_of_lt (by omega) h
    omega

theorem not_mem_skip (t : Tiles n len skip) {p : ℕ} (hp : 0 < len p) : p ∉ skip :=
  t.avoid p p le_rfl (by omega)

/-- Two tiles, one ending where the other begins, become one. -/
theorem join (t : Tiles n len skip) {lo hi : ℕ} (hlo : 0 < len lo) (hhi : 0 < len hi)
    (h : hi = lo + len lo) :
    Tiles n (Function.update (Function.update len hi 0) lo (len lo + len hi)) skip := by
  have hne : hi ≠ lo := by omega
  refine ⟨fun p hp => ?_, fun p q hpq hq => ?_, fun p q hpq hq => ?_, fun q hq hs => ?_⟩
  · have h1 := t.fits p
    have h2 := t.fits hi hhi
    simp only [Function.update_apply] at hp ⊢
    split_ifs at hp ⊢ <;> omega
  · -- a point past `lo` but inside the joined tile is inside `lo`, is `hi`, or is inside `hi`
    have h1 := t.alone p q hpq
    have h2 := t.alone hi q
    have h3 := t.le_of_lt (p := p) hlo
    grind [Function.update_apply]
  · have h1 := t.avoid p q hpq
    have h2 := t.avoid hi q
    simp only [Function.update_apply] at hq
    split_ifs at hq with h3 h4
    · subst h3
      by_cases h5 : q < hi
      · exact h1 (by omega)
      · exact h2 (by omega) (by omega)
    · omega
    · exact h1 hq
  · obtain ⟨p, hp, hq'⟩ := t.cover q hq hs
    by_cases h1 : p = hi
    · refine ⟨lo, by omega, ?_⟩
      rw [Function.update_self]
      subst h1
      omega
    · refine ⟨p, hp, ?_⟩
      simp only [Function.update_apply, if_neg h1]
      split_ifs with h2
      · subst h2
        omega
      · exact hq'

/-- A tile gives up the points from `p + m` on. -/
theorem cut (t : Tiles n len skip) {p m : ℕ} (hm : 0 < m) (hle : m ≤ len p) :
    Tiles n (Function.update len p m) (skip ∪ Set.Ico (p + m) (p + len p)) := by
  refine ⟨fun q hq => ?_, fun a b hab hb => ?_, fun a b hab hb => ?_, fun q hq hs => ?_⟩
  · have h1 := t.fits q
    simp only [Function.update_apply] at hq ⊢
    split_ifs at hq ⊢ with h2
    · subst h2
      have := h1 (by omega)
      omega
    · exact h1 hq
  · have h1 := t.alone a b hab
    have h2 := t.alone p b
    grind [Function.update_apply]
  · have h1 := t.avoid a b hab
    simp only [Function.update_apply] at hb
    rintro (hs | hs)
    · split_ifs at hb with h2
      · subst h2
        exact h1 (by omega) hs
      · exact h1 hb hs
    · simp only [Set.mem_Ico] at hs
      split_ifs at hb with h2
      · omega
      · exact h2 (t.unique (x := b) hab hb (by omega) hs.2)
  · simp only [Set.mem_union, Set.mem_Ico, not_or] at hs
    obtain ⟨a, ha, hq'⟩ := t.cover q hq hs.1
    refine ⟨a, ha, ?_⟩
    simp only [Function.update_apply]
    split_ifs with h2
    · subst h2
      omega
    · exact hq'

/-- A new tile is cut out of the skipped points. -/
theorem carve (t : Tiles n len skip) {p m : ℕ} (hm : 0 < m) (hn : p + m ≤ n)
    (hs : Set.Ico p (p + m) ⊆ skip) :
    Tiles n (Function.update len p m) (skip \ Set.Ico p (p + m)) := by
  have hskip : ∀ q, p ≤ q → q < p + m → q ∈ skip := fun q h1 h2 => hs ⟨h1, h2⟩
  refine ⟨fun q hq => ?_, fun a b hab hb => ?_, fun a b hab hb => ?_, fun q hq hns => ?_⟩
  · simp only [Function.update_apply] at hq ⊢
    split_ifs at hq ⊢ with h2
    · omega
    · exact t.fits q hq
  · have h1 := t.alone a b hab
    have h2 := fun h => t.not_mem_skip (p := b) h
    have h3 := t.avoid a b hab.le
    have h4 := hskip b
    grind [Function.update_apply]
  · simp only [Function.update_apply] at hb
    rintro ⟨h1, h2⟩
    split_ifs at hb with h3
    · subst h3
      exact h2 ⟨hab, hb⟩
    · exact t.avoid a b hab hb h1
  · by_cases h1 : q ∈ skip
    · have h2 : q ∈ Set.Ico p (p + m) := by
        by_contra h3
        exact hns ⟨h1, h3⟩
      exact ⟨p, h2.1, by rw [Function.update_self]; exact h2.2⟩
    · obtain ⟨a, ha, hq'⟩ := t.cover q hq h1
      refine ⟨a, ha, ?_⟩
      simp only [Function.update_apply]
      split_ifs with h2
      · subst h2
        exact absurd (hskip a le_rfl (by omega)) (t.avoid a a le_rfl (by omega))
      · exact hq'

end Tiles

end Tiling
