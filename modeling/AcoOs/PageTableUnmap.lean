/-
What `riscv_unmap` does.

Over a missing table the code passes by a whole entry, so on a range that is only partly
mapped it may clear less than it was asked for, never more (`Erased`).  Where no table is
missing it clears exactly the range (`Unmapped.exact`).

A table is freed when the pages passed below its entry are the full span of the entry.
Then each of its entries is empty: that is `UnmapSpec.emptied`, by the bound on what can
be passed below one entry.
-/
import AcoOs.PageTableWalk

namespace AcoOs

open Radix

variable {L : VmLayout} {A : PageAllocator L.toLayout}

namespace Memory

variable {K : ℕ → Prop} {x x' x'' : Memory A} {d t t' b i v : ℕ} {pages pages' : ℤ}

/-- No table, or an empty entry. -/
def Gone (o : Option ℕ) : Prop := o = none ∨ o = some 0

/-- A position among the `pages` pages from `v` on; without a bound when `pages` is not
positive. -/
def InRange (v : ℕ) (pages : ℤ) (w : ℕ) : Prop := v ≤ w ∧ (0 < pages → (w : ℤ) < v + pages)

/-- Only entries in the range became empty. -/
def Erased (x x' : Memory A) (d t v : ℕ) (pages : ℤ) : Prop :=
  ∀ w < 512 ^ (d + 1), x'.leaf d t w = x.leaf d t w ∨
    Gone (x'.leaf d t w) ∧ (Gone (x.leaf d t w) ∨ InRange v pages w)

/-- A part of an unmap, from position `v` to about `stop`; `slack` says how far beyond it a
missing table can take it. -/
structure Unmapped (K : ℕ → Prop) (x x' : Memory A) (d t b v stop slack : ℕ)
    (pages pages' : ℤ) : Prop where
  step : TableStep K x x' d t b
  erased : Erased x x' d t v pages
  left : 0 < pages → 0 ≤ pages' ∧ (pages' = 0 ∨
    stop ≤ v + (pages - pages') ∧ v + (pages - pages') < stop + slack)
  spent : pages ≤ 0 → pages' = 0 ∧ (∃ w, v ≤ w ∧ w < stop ∧ x.leaf d t w = none) ∨
    pages' = pages - (stop - v)
  exact : 0 < pages →
    (∀ w, v ≤ w → w < stop → (w : ℤ) < v + pages → x.leaf d t w ≠ none) →
    (pages' = 0 ∧ v + pages ≤ stop ∨ v + (pages - pages') = stop) ∧
    ∀ w, v ≤ w → w < stop → (w : ℤ) < v + pages → Gone (x'.leaf d t w)

/-- What is proved of an unmap on one level, for use one level up. -/
def UnmapSpec (K : ℕ → Prop) (d : ℕ) (next : ℕ → Memory A → ℕ → ℤ → Option (ℤ × Memory A)) :
    Prop :=
  ∀ t x va pages b, TableInv K x d t b →
    (∀ w, InRange (position d va) pages w → ¬ K (b + w)) → ∃ pages' x',
    next t x va pages = some (pages', x') ∧
    Unmapped K x x' d t b (position d va) (512 ^ (d + 1)) (512 ^ d) pages pages' ∧
    pages - pages' ≤ (512 ^ (d + 1) : ℕ) ∧
    (pages - pages' = (512 ^ (d + 1) : ℕ) → ∀ j < 512, x'.words t j = 0)

theorem Gone.not_valid (h : Gone (x.leaf d t v)) : ¬ x.ValidAt d t v := by
  rintro ⟨e, he, hve⟩
  rcases h with h | h
  · rw [h] at he
    cases he
  · rw [h] at he
    cases he
    exact not_pteValid_zero hve

theorem Erased.refl (x : Memory A) (d t v : ℕ) (pages : ℤ) : Erased x x d t v pages :=
  fun _ _ => .inl rfl

theorem InRange.of_later {v' w : ℕ} {pages₁ : ℤ} (hv : v ≤ v')
    (hp : 0 < pages → 0 < pages₁ ∧ v' + pages₁ ≤ v + pages) (h : InRange v' pages₁ w) :
    InRange v pages w := by
  refine ⟨hv.trans h.1, fun h0 => ?_⟩
  obtain ⟨h1, h2⟩ := hp h0
  exact lt_of_lt_of_le (h.2 h1) h2

/-- The range below an entry, as a range of the table. -/
theorem InRange.shift {w : ℕ} (m : ℕ) (h : InRange v pages w) :
    InRange (m + v) pages (m + w) := by
  refine ⟨Nat.add_le_add_left h.1 m, fun hp => ?_⟩
  have := h.2 hp
  push_cast
  omega

theorem Erased.trans {v' : ℕ} {pages₁ : ℤ} (h : Erased x x' d t v pages)
    (h' : Erased x' x'' d t v' pages₁) (hv : v ≤ v')
    (hp : 0 < pages → 0 < pages₁ ∧ v' + pages₁ ≤ v + pages) : Erased x x'' d t v pages := by
  intro w hw
  rcases h' w hw with h2 | ⟨hg, h2⟩
  · rw [h2]
    exact h w hw
  · refine .inr ⟨hg, ?_⟩
    rcases h2 with hg' | hr
    · rcases h w hw with h1 | ⟨-, h1⟩
      · rw [h1] at hg'
        exact .inl hg'
      · exact h1
    · exact .inr (hr.of_later hv hp)

/-! ### The last level -/

theorem unmapLeaves_spec (n : ℕ) (x : Memory A) (pages : ℤ) (hn : n ≤ 512)
    (hinv : TableInv K x 0 t b) (hK : ∀ w, InRange (512 - n) pages w → ¬ K (b + w)) :
    ∃ pages' x',
    unmapLeaves t n x pages = (pages', x') ∧
    TableStep K x x' 0 t b ∧
    (∀ w < 512, x'.words t w = x.words t w ∨ x'.words t w = 0 ∧ InRange (512 - n) pages w) ∧
    (0 < pages → 0 ≤ pages' ∧ (pages' = 0 ∧ pages ≤ n ∨ pages' = pages - n)) ∧
    (pages ≤ 0 → pages' = pages - n) ∧
    (∀ w, 512 - n ≤ w → w < 512 → (0 < pages → (w : ℤ) < (512 - n : ℕ) + pages) →
      x'.words t w = 0) := by
  induction n generalizing x pages with
  | zero =>
    refine ⟨pages, x, rfl, .refl hinv, fun _ _ => .inl rfl, fun h => ⟨h.le, .inr (by simp)⟩,
      fun _ => by simp, fun w h1 h2 => by omega⟩
  | succ n ih =>
    rw [unmapLeaves, pteNums_eq]
    have hstep : TableStep K x (x.setWord t (512 - (n + 1)) 0) 0 t b := by
      refine .setLeaf hinv fun hk => absurd hk (hK _ ⟨le_rfl, fun h0 => ?_⟩)
      omega
    have hword : ∀ w, (x.setWord t (512 - (n + 1)) 0).words t w =
        if w = 512 - (n + 1) then 0 else x.words t w := by
      intro w
      rw [setWord_words]
      by_cases hw : w = 512 - (n + 1)
      · rw [if_pos ⟨rfl, hw⟩, if_pos hw]
      · rw [if_neg fun h => hw h.2, if_neg hw]
    by_cases h0 : pages - 1 = 0
    · rw [if_pos h0]
      refine ⟨pages - 1, _, rfl, hstep, ?_, fun _ => ⟨by omega, .inl ⟨h0, by omega⟩⟩,
        fun h => by omega, ?_⟩
      · intro w _
        rw [hword]
        by_cases hw : w = 512 - (n + 1)
        · rw [if_pos hw]
          exact .inr ⟨rfl, by omega, fun _ => by omega⟩
        · rw [if_neg hw]
          exact .inl rfl
      · intro w h1 h2 h3
        rw [hword, if_pos (by have := h3 (by omega); omega)]
    · rw [if_neg h0]
      have hlater : ∀ w, InRange (512 - n) (pages - 1) w → InRange (512 - (n + 1)) pages w :=
        fun w hw => hw.of_later (by omega) fun hp => ⟨by omega, by omega⟩
      obtain ⟨pages', x', heq, h1, h2, h3, h4, h5⟩ := ih _ (pages - 1) (by omega) hstep.inv
        (fun w hw => hK w (hlater w hw))
      refine ⟨pages', x', heq, hstep.trans h1, ?_, ?_, ?_, ?_⟩
      · intro w hw
        rcases h2 w hw with hr | ⟨hr, hin⟩
        · rw [hr, hword]
          by_cases hwi : w = 512 - (n + 1)
          · rw [if_pos hwi]
            exact .inr ⟨rfl, by omega, fun _ => by omega⟩
          · rw [if_neg hwi]
            exact .inl rfl
        · exact .inr ⟨hr, hlater w hin⟩
      · intro hp
        obtain ⟨h6, h7⟩ := h3 (by omega)
        refine ⟨h6, ?_⟩
        push_cast
        omega
      · intro hp
        rw [h4 (by omega)]
        push_cast
        omega
      · intro w hw1 hw2 hw3
        by_cases hwi : w = 512 - (n + 1)
        · rcases h2 w hw2 with hr | ⟨hr, -⟩
          · rw [hr, hword, if_pos hwi]
          · exact hr
        · exact h5 w (by omega) hw2 fun hp => by have := hw3 (by omega); omega

theorem unmap_leaves (K : ℕ → Prop) : UnmapSpec (A := A) K 0 (riscvUnmap 0) := by
  intro t x va pages b hinv hK
  have hv := position_lt 0 va
  have hidx : sv39Index2Id va 2 = position 0 va := by
    have := index_eq (d := 0) (by omega) va
    rwa [pow_zero, Nat.div_one] at this
  rw [Nat.zero_add, pow_one] at hv
  have hcnt : 512 - (512 - position 0 va) = position 0 va := by omega
  obtain ⟨pages', x', heq, h1, h2, h3, h4, h5⟩ := unmapLeaves_spec (512 - position 0 va) x pages
    (Nat.sub_le _ _) hinv (by rw [hcnt]; exact hK)
  rw [hcnt] at h2 h5
  have hleaf : ∀ (y : Memory A) (w : ℕ), y.leaf 0 t w = some (y.words t w) := fun _ _ => rfl
  refine ⟨pages', x', by rw [riscvUnmap, hidx, pteNums_eq, heq], ⟨h1, ?_, ?_, ?_, ?_⟩, ?_, ?_⟩
  · intro w hw
    rw [hleaf, hleaf]
    rcases h2 w (by omega) with hr | ⟨hr, hin⟩
    · exact .inl (by rw [hr])
    · exact .inr ⟨.inr (by rw [hr]), .inr hin⟩
  · intro hp
    have := h3 hp
    omega
  · intro hp
    have := h4 hp
    omega
  · intro hp _
    refine ⟨?_, fun w hw1 hw2 hw3 => .inr ?_⟩
    · have := h3 hp
      omega
    · rw [hleaf, h5 w (by omega) (by omega) fun _ => by omega]
  · rcases le_or_gt pages 0 with hp | hp
    · have := h4 hp
      omega
    · have := h3 hp
      omega
  · intro hfull j hj
    rcases le_or_gt pages 0 with hp | hp
    · have := h4 hp
      exact h5 j (by omega) hj fun h => by omega
    · have := h3 hp
      exact h5 j (by omega) hj fun _ => by omega

/-! ### The other levels -/

/-- What an unmap does at entry `i`: a part of the unmap of the table, at no other entry,
which leaves the entry empty when the whole span of the entry was passed. -/
structure EntryUnmapped (K : ℕ → Prop) (x x' : Memory A) (d t b i v : ℕ)
    (pages pages' : ℤ) : Prop where
  unmapped : Unmapped K x x' (d + 1) t b v ((i + 1) * 512 ^ (d + 1)) (512 ^ (d + 1)) pages pages'
  words : ∀ j, j ≠ i → x'.words t j = x.words t j
  other : ∀ w < 512 ^ (d + 1 + 1), w / 512 ^ (d + 1) ≠ i →
    x'.leaf (d + 1) t w = x.leaf (d + 1) t w
  bound : pages - pages' ≤ (512 ^ (d + 1) : ℕ)
  emptied : pages - pages' = (512 ^ (d + 1) : ℕ) → x'.words t i = 0

theorem sv39IndexPages_eq (hd : d + 1 ≤ 2) :
    sv39IndexPages (1 - d) = (512 ^ (d + 1) : ℕ) := by
  obtain rfl | rfl : d = 0 ∨ d = 1 := by omega
  · rfl
  · rfl

/-- The entries below entry `i`, as positions of the table below it. -/
theorem leaf_of_entry (hn : (sv39Format L).next (x.words t i) = some t') {w : ℕ}
    (hw : w < 512 ^ (d + 1)) : x.leaf (d + 1) t (i * 512 ^ (d + 1) + w) = x.leaf d t' w := by
  have hdiv : (i * 512 ^ (d + 1) + w) / 512 ^ (d + 1) = i := by
    rw [Nat.div_eq_iff (pow_pos (by norm_num) _)]
    omega
  have hmod : (i * 512 ^ (d + 1) + w) % 512 ^ (d + 1) = w := by
    rw [Nat.mul_comm, Nat.mul_add_mod, Nat.mod_eq_of_lt hw]
  rw [leaf_child (by rw [hdiv, hn]), hmod]

/-- Below a missing table nothing is cleared. -/
theorem EntryUnmapped.of_hole (hinv : TableInv K x (d + 1) t b)
    (hn : (sv39Format L).next (x.words t i) = none) (h0 : x.words t i = 0)
    (hv : v < 512 ^ (d + 1)) (hpages : pages' = if (512 ^ (d + 1) : ℕ) < pages then
      pages - (512 ^ (d + 1) : ℕ) else 0) :
    EntryUnmapped K x x d t b i (i * 512 ^ (d + 1) + v) pages pages' := by
  have hS : 0 < 512 ^ (d + 1) := pow_pos (by norm_num) _
  have hadd : (i + 1) * 512 ^ (d + 1) = i * 512 ^ (d + 1) + 512 ^ (d + 1) := by
    rw [Nat.add_mul, Nat.one_mul]
  have hcase : (512 ^ (d + 1) : ℕ) < pages ∧ pages' = pages - (512 ^ (d + 1) : ℕ) ∨
      pages ≤ (512 ^ (d + 1) : ℕ) ∧ pages' = 0 := by
    rw [hpages]
    split_ifs <;> omega
  have hleaf : x.leaf (d + 1) t (i * 512 ^ (d + 1) + v) = none := by
    refine leaf_hole ?_
    have hdiv : (i * 512 ^ (d + 1) + v) / 512 ^ (d + 1) = i := by
      rw [Nat.div_eq_iff hS]
      omega
    rw [hdiv, hn]
  refine ⟨⟨.refl hinv, .refl _ _ _ _ _, ?_, ?_, ?_⟩, fun _ _ => rfl, fun _ _ _ => rfl, ?_,
    fun _ => h0⟩
  · intro hp
    clear hleaf
    generalize 512 ^ (d + 1) = S at *
    omega
  · intro hp
    exact .inl ⟨by omega, i * 512 ^ (d + 1) + v, le_rfl, by omega, hleaf⟩
  · intro hp hno
    exact absurd hleaf (hno (i * 512 ^ (d + 1) + v) le_rfl (by omega) (by omega))
  · clear hleaf
    generalize 512 ^ (d + 1) = S at *
    omega

/-- An unmap in the table below entry `i` is a part of one of the table itself. -/
theorem EntryUnmapped.of_child (hinv : TableInv K x (d + 1) t b) (hi : i < 512)
    (hn : (sv39Format L).next (x.words t i) = some t') (hv : v < 512 ^ (d + 1))
    (h : Unmapped K x x' d t' (b + i * 512 ^ (d + 1)) v (512 ^ (d + 1)) (512 ^ d) pages pages')
    (hbound : pages - pages' ≤ (512 ^ (d + 1) : ℕ))
    (hnot : pages - pages' ≠ (512 ^ (d + 1) : ℕ)) :
    EntryUnmapped K x x' d t b i (i * 512 ^ (d + 1) + v) pages pages' := by
  have hS : 0 < 512 ^ (d + 1) := pow_pos (by norm_num) _
  have hSd : 512 ^ d ≤ 512 ^ (d + 1) := pow_le_pow_right₀ (by norm_num) (Nat.le_succ d)
  have hadd : (i + 1) * 512 ^ (d + 1) = i * 512 ^ (d + 1) + 512 ^ (d + 1) := by
    rw [Nat.add_mul, Nat.one_mul]
  have hentry := h.step.entry hinv hi hn
  have hwords := (h.step.frame t (hinv.apart t (root_mem_tables x _ t))
    (hinv.tree.child hi hn).2).1
  have hn' : (sv39Format L).next (x'.words t i) = some t' := by rw [hwords, hn]
  refine ⟨⟨hentry.tableStep hinv hi, ?_, ?_, ?_, ?_⟩, fun j _ => by rw [hwords],
    fun w hw hwi => hentry.leaf_other hinv hi hw hwi, hbound, fun hfull => absurd hfull hnot⟩
  · intro w hw
    by_cases hdiv : w / 512 ^ (d + 1) = i
    · have hw' : w = i * 512 ^ (d + 1) + w % 512 ^ (d + 1) := by
        rw [← hdiv, Nat.mul_comm, Nat.div_add_mod]
      have hlt := Nat.mod_lt w hS
      generalize w % 512 ^ (d + 1) = u at *
      rw [hw', leaf_of_entry hn hlt, leaf_of_entry hn' hlt]
      exact (h.erased u hlt).imp id fun ⟨hg, hr⟩ => ⟨hg, hr.imp id fun hin => hin.shift _⟩
    · exact .inl (hentry.leaf_other hinv hi hw hdiv)
  · intro hp
    have := h.left hp
    rw [hadd]
    clear hnot hadd
    generalize 512 ^ (d + 1) = S at *
    generalize 512 ^ d = S' at *
    omega
  · intro hp
    rw [hadd]
    rcases h.spent hp with ⟨h0, w, hw1, hw2, hw3⟩ | hspent
    · refine .inl ⟨h0, i * 512 ^ (d + 1) + w, Nat.add_le_add_left hw1 _, by omega, ?_⟩
      rw [leaf_of_entry hn hw2, hw3]
    · right
      clear hnot hadd
      generalize 512 ^ (d + 1) = S at *
      omega
  · intro hp hno
    obtain ⟨h1, h2⟩ := h.exact hp fun w hw1 hw2 hw3 => by
      rw [← leaf_of_entry hn hw2]
      exact hno _ (by omega) (by omega) (by push_cast; omega)
    refine ⟨?_, fun w hw1 hw2 hw3 => ?_⟩
    · rw [hadd]
      clear hnot hadd hno h2
      generalize 512 ^ (d + 1) = S at *
      omega
    · obtain ⟨u, rfl⟩ := Nat.exists_eq_add_of_le (show i * 512 ^ (d + 1) ≤ w by omega)
      have hlt : u < 512 ^ (d + 1) := by omega
      rw [leaf_of_entry hn' hlt]
      refine h2 u (by omega) hlt ?_
      push_cast at hw3
      omega

/-- The table below entry `i` was left empty and freed: the unmap of it is a part of one of the
table itself. -/
theorem EntryUnmapped.of_emptied (hinv : TableInv K x (d + 1) t b) (hi : i < 512)
    (hn : (sv39Format L).next (x.words t i) = some t')
    (h : Unmapped K x x' d t' (b + i * 512 ^ (d + 1)) v (512 ^ (d + 1)) (512 ^ d) pages pages')
    (hfull : pages - pages' = (512 ^ (d + 1) : ℕ))
    (hgone : ∀ w < 512 ^ (d + 1), Gone (x'.leaf d t' w))
    (hlink : EntryStep K x' x'' d t b i) (hzero : x''.words t i = 0) :
    EntryUnmapped K x x'' d t b i (i * 512 ^ (d + 1) + v) pages pages' := by
  have hS : 0 < 512 ^ (d + 1) := pow_pos (by norm_num) _
  have hadd : (i + 1) * 512 ^ (d + 1) = i * 512 ^ (d + 1) + 512 ^ (d + 1) := by
    rw [Nat.add_mul, Nat.one_mul]
  have hentry := h.step.entry hinv hi hn
  have hinv' := (hentry.tableStep hinv hi).inv
  have hhole : ∀ w, w / 512 ^ (d + 1) = i → x''.leaf (d + 1) t w = none := by
    intro w hw
    refine leaf_hole ?_
    rw [hw, hzero]
    exact sv39Format_next_none fun h => not_pteValid_zero h.1
  have hother : ∀ w < 512 ^ (d + 1 + 1), w / 512 ^ (d + 1) ≠ i →
      x''.leaf (d + 1) t w = x.leaf (d + 1) t w := fun w hw hwi =>
    (hlink.leaf_other hinv' hi hw hwi).trans (hentry.leaf_other hinv hi hw hwi)
  refine ⟨⟨(hentry.tableStep hinv hi).trans (hlink.tableStep hinv' hi), ?_, ?_, ?_, ?_⟩,
    fun j hj => ?_, hother, hfull.le, fun _ => hzero⟩
  · intro w hw
    by_cases hdiv : w / 512 ^ (d + 1) = i
    · refine .inr ⟨.inl (hhole w hdiv), ?_⟩
      have hw' : w = i * 512 ^ (d + 1) + w % 512 ^ (d + 1) := by
        rw [← hdiv, Nat.mul_comm, Nat.div_add_mod]
      have hlt := Nat.mod_lt w hS
      generalize w % 512 ^ (d + 1) = u at *
      rw [hw', leaf_of_entry hn hlt]
      rcases h.erased u hlt with hr | ⟨-, hr⟩
      · exact .inl (by rw [← hr]; exact hgone u hlt)
      · exact hr.imp id fun hin => hin.shift _
    · exact .inl (hother w hw hdiv)
  · intro hp
    have := h.left hp
    have hSd : 512 ^ d ≤ 512 ^ (d + 1) := pow_le_pow_right₀ (by norm_num) (Nat.le_succ d)
    rw [hadd]
    clear hgone hhole hother hadd
    generalize 512 ^ (d + 1) = S at *
    generalize 512 ^ d = S' at *
    omega
  · -- the span is never passed for want of pages
    intro hp
    right
    rw [hadd]
    have hspent := h.spent hp
    clear hgone hhole hother hadd
    generalize 512 ^ (d + 1) = S at *
    omega
  · intro hp hno
    obtain ⟨h1, -⟩ := h.exact hp fun w hw1 hw2 hw3 => by
      rw [← leaf_of_entry hn hw2]
      exact hno _ (by omega) (by omega) (by push_cast; omega)
    refine ⟨?_, fun w hw1 hw2 _ => .inl (hhole w ?_)⟩
    · rw [hadd]
      clear hgone hhole hother hadd hno
      generalize 512 ^ (d + 1) = S at *
      omega
    · rw [Nat.div_eq_iff hS]
      omega
  · rw [hlink.words j hj, hentry.words j hj]

variable {next : ℕ → Memory A → ℕ → ℤ → Option (ℤ × Memory A)}

/-- How an unmap goes by entry `i`: there is no table below it, or one that stays, or one that the
unmap leaves empty and that is freed. -/
inductive EntryRun (K : ℕ → Prop) (next : ℕ → Memory A → ℕ → ℤ → Option (ℤ × Memory A))
    (x : Memory A) (d t b i va : ℕ) (pages : ℤ) : ℤ → Memory A → Prop
  | hole (hn : (sv39Format L).next (x.words t i) = none) (h0 : x.words t i = 0) :
      EntryRun K next x d t b i va pages
        (if (512 ^ (d + 1) : ℕ) < pages then pages - (512 ^ (d + 1) : ℕ) else 0) x
  | child {t' : ℕ} {pages' : ℤ} {x' : Memory A}
      (hn : (sv39Format L).next (x.words t i) = some t')
      (hx' : next t' x va pages = some (pages', x'))
      (h : Unmapped K x x' d t' (b + i * 512 ^ (d + 1)) (position d va) (512 ^ (d + 1)) (512 ^ d)
        pages pages')
      (hbound : pages - pages' ≤ (512 ^ (d + 1) : ℕ))
      (hnot : pages - pages' ≠ (512 ^ (d + 1) : ℕ)) :
      EntryRun K next x d t b i va pages pages' x'
  | emptied {t' : ℕ} {pages' : ℤ} {x₁ x' : Memory A}
      (hn : (sv39Format L).next (x.words t i) = some t')
      (hx₁ : next t' x va pages = some (pages', x₁))
      (h : Unmapped K x x₁ d t' (b + i * 512 ^ (d + 1)) (position d va) (512 ^ (d + 1)) (512 ^ d)
        pages pages')
      (hfull : pages - pages' = (512 ^ (d + 1) : ℕ))
      (hgone : ∀ w < 512 ^ (d + 1), Gone (x₁.leaf d t' w))
      (hlink : EntryStep K x₁ x' d t b i) (hzero : x'.words t i = 0) :
      EntryRun K next x d t b i va pages pages' x'

/-- Nothing is left in a table without entries. -/
theorem gone_of_empty (hclear : ∀ j < 512, x.words t j = 0) :
    ∀ w < 512 ^ (d + 1), Gone (x.leaf d t w) := by
  intro w hw
  cases he : x.leaf d t w with
  | none => exact .inl rfl
  | some e => exact .inr (by rw [leaf_of_empty (F := sv39Format L) hclear hw he]; rfl)

/-- The table below the entry is not at address zero. -/
theorem nextPgtable_ne_zero (hn : (sv39Format L).next (x.words t i) = some t')
    (hptr : PteNextpgt (x.words t i)) (hlt : t' < L.pageNums) :
    L.pa2va (sv39PTE2Pa (x.words t i)) ≠ 0 := by
  intro h0
  have ht' : L.va2pg (L.pa2va (sv39PTE2Pa (x.words t i))) = t' := by
    rw [sv39Format_next hptr] at hn
    exact Option.some.inj hn
  rw [h0] at ht'
  have h1 := L.vaEnd_le
  have h2 := L.vaStart_pos
  have h3 := L.pageNums_lt
  unfold Layout.va2pg at ht'
  simp only [pageSize, pageOffset] at *
  omega

theorem unmapEntry_run (hnext : UnmapSpec K d next) (hd : d + 1 ≤ 2)
    (hinv : TableInv K x (d + 1) t b) (hi : i < 512) (va : ℕ) (pages : ℤ)
    (hK : ∀ w, InRange (i * 512 ^ (d + 1) + position d va) pages w → ¬ K (b + w)) :
    ∃ pages' x', unmapEntry next (1 - d) t i x va pages = some (pages', x') ∧
    EntryRun K next x d t b i va pages pages' x' := by
  rw [unmapEntry, sv39IndexPages_eq hd]
  rcases hinv.tree i hi with h0 | ⟨t', hn, -⟩
  · -- no table below this entry
    rw [sv39Format_empty] at h0
    have hnot : ¬ PteNextpgt (x.words t i) := by
      rw [h0]
      exact fun h => not_pteValid_zero h.1
    rw [if_neg hnot]
    refine ⟨_, x, ?_, .hole (sv39Format_next_none hnot) h0⟩
    split_ifs <;> rfl
  · obtain ⟨hptr, heq⟩ := nextPgtable_eq hn
    obtain ⟨hinv', hplt, -⟩ := hinv.child hi hn
    have hK' : ∀ w, InRange (position d va) pages w → ¬ K (b + i * 512 ^ (d + 1) + w) := by
      intro w hw
      rw [Nat.add_assoc]
      exact hK _ (hw.shift _)
    obtain ⟨pages', x₁, hx₁, hun, hbound, hempty⟩ := hnext t' x va pages _ hinv' hK'
    rw [if_pos hptr, if_pos (nextPgtable_ne_zero hn hptr hplt), heq]
    dsimp only
    rw [hx₁]
    dsimp only
    by_cases hfull : pages - pages' = (512 ^ (d + 1) : ℕ)
    · -- the whole span was passed: the table below is empty and is freed
      have hentry := hun.step.entry hinv hi hn
      have hn₁ : (sv39Format L).next (x₁.words t i) = some t' := by
        rw [(hun.step.frame t (hinv.apart t (root_mem_tables x _ t)) (hinv.tree.child hi hn).2).1,
          hn]
      have hclear : ∀ j < 512, x₁.words t' j = 0 := hempty hfull
      have hgone := gone_of_empty (d := d) hclear
      obtain ⟨x₂, hx₂, hwords, hlink⟩ := EntryStep.unlink (hentry.tableStep hinv hi).inv hi hn₁
        (tables_of_empty (F := sv39Format L) hclear) fun w hw => (hgone w hw).not_valid
      have hzero : x₂.words t i = 0 := by rw [hwords, setWord_words, if_pos ⟨rfl, rfl⟩]
      rw [if_pos hfull, hx₂]
      exact ⟨pages', x₂, rfl, .emptied hn hx₁ hun hfull hgone hlink hzero⟩
    · rw [if_neg hfull]
      exact ⟨pages', x₁, rfl, .child hn hx₁ hun hbound hfull⟩

theorem unmapEntry_spec (hnext : UnmapSpec K d next) (hd : d + 1 ≤ 2)
    (hinv : TableInv K x (d + 1) t b) (hi : i < 512) (va : ℕ) (pages : ℤ)
    (hK : ∀ w, InRange (i * 512 ^ (d + 1) + position d va) pages w → ¬ K (b + w)) :
    ∃ pages' x', unmapEntry next (1 - d) t i x va pages = some (pages', x') ∧
    EntryUnmapped K x x' d t b i (i * 512 ^ (d + 1) + position d va) pages pages' := by
  have hv := position_lt d va
  obtain ⟨pages', x', heq, hrun⟩ := unmapEntry_run hnext hd hinv hi va pages hK
  refine ⟨pages', x', heq, ?_⟩
  cases hrun with
  | hole hn h0 => exact .of_hole hinv hn h0 hv rfl
  | child hn _ h hbound hnot => exact .of_child hinv hi hn hv h hbound hnot
  | emptied hn _ h hfull hgone hlink hzero =>
    exact .of_emptied hinv hi hn h hfull hgone hlink hzero

/-- The part that ends the unmap is a part of any longer one. -/
theorem Unmapped.of_done {stop stop' slack : ℕ}
    (h : Unmapped K x x' d t b v stop slack pages 0) (hv : v < stop) (hs : stop ≤ stop') :
    Unmapped K x x' d t b v stop' slack pages 0 where
  step := h.step
  erased := h.erased
  left _ := ⟨le_rfl, .inl rfl⟩
  spent hp := by
    rcases h.spent hp with ⟨-, w, hw1, hw2, hw3⟩ | h0
    · exact .inl ⟨rfl, w, hw1, by omega, hw3⟩
    · omega
  exact hp hno := by
    obtain ⟨h1, h2⟩ := h.exact hp fun w hw1 hw2 hw3 => hno w hw1 (by omega) hw3
    exact ⟨.inl ⟨rfl, by omega⟩, fun w hw1 _ hw3 => h2 w hw1 (by omega) hw3⟩

/-- Where the unmap goes on behind an entry. -/
theorem EntryUnmapped.next_eq {pages₁ : ℤ} (h : EntryUnmapped K x x' d t b i v pages pages₁)
    (h0 : pages₁ ≠ 0) (hhi : v < (i + 1) * 512 ^ (d + 1)) :
    ∃ v' : ℕ, (v' : ℤ) = v + (pages - pages₁) ∧ (i + 1) * 512 ^ (d + 1) ≤ v' ∧
      v' < (i + 1 + 1) * 512 ^ (d + 1) ∧ (0 < pages → 0 < pages₁) ∧
      (pages ≤ 0 → v' = (i + 1) * 512 ^ (d + 1) ∧ pages₁ ≤ 0) := by
  have hadd : (i + 1 + 1) * 512 ^ (d + 1) = (i + 1) * 512 ^ (d + 1) + 512 ^ (d + 1) := by
    rw [Nat.add_mul (i + 1), Nat.one_mul]
  have hS : 0 < 512 ^ (d + 1) := pow_pos (by norm_num) _
  have hleft := h.unmapped.left
  have hspent : pages ≤ 0 → pages₁ = pages - ((i + 1) * 512 ^ (d + 1) : ℕ) + v := fun hp => by
    have := (h.unmapped.spent hp).resolve_left fun hs => h0 hs.1
    omega
  refine ⟨(v + (pages - pages₁)).toNat, ?_⟩
  rw [hadd]
  clear hadd h
  generalize 512 ^ (d + 1) = S at *
  generalize (i + 1) * S = B at *
  rcases le_or_gt pages 0 with hp | hp
  · have := hspent hp
    omega
  · have := hleft hp
    omega

/-- The unmap of one entry, and then of the entries behind it. -/
theorem EntryUnmapped.cons {v' stop slack : ℕ} {pages₁ : ℤ}
    (h : EntryUnmapped K x x' d t b i v pages pages₁) (hhi : v < (i + 1) * 512 ^ (d + 1))
    (h0 : pages₁ ≠ 0) (hv' : (v' : ℤ) = v + (pages - pages₁))
    (h' : Unmapped K x' x'' (d + 1) t b v' stop slack pages₁ pages')
    (hs : (i + 1) * 512 ^ (d + 1) ≤ stop) (hs' : stop ≤ 512 ^ (d + 1 + 1)) :
    Unmapped K x x'' (d + 1) t b v stop slack pages pages' := by
  have hS : 0 < 512 ^ (d + 1) := pow_pos (by norm_num) _
  obtain ⟨u, hu, hlo, -, hpos, hneg⟩ := h.next_eq h0 hhi
  obtain rfl : v' = u := by omega
  refine ⟨h.unmapped.step.trans h'.step, ?_, ?_, ?_, ?_⟩
  · exact h.unmapped.erased.trans h'.erased (by omega) fun hp => ⟨hpos hp, by omega⟩
  · intro hp
    have := h'.left (hpos hp)
    omega
  · intro hp
    have hv'' := (hneg hp).1
    rcases h'.spent (hneg hp).2 with ⟨hz, w, hw1, hw2, hw3⟩ | hspent
    · -- the hole is behind this entry, so it was there before
      refine .inl ⟨hz, w, by omega, hw2, ?_⟩
      rwa [h.other w (by omega)] at hw3
      intro hdiv
      rw [Nat.div_eq_iff hS] at hdiv
      rw [Nat.add_mul, Nat.one_mul] at hv''
      omega
    · right
      omega
  · intro hp hno
    obtain ⟨h1, h2⟩ := h.unmapped.exact hp fun w hw1 hw2 hw3 => hno w hw1 (by omega) hw3
    have hstop : v' = (i + 1) * 512 ^ (d + 1) := by
      have := h1.resolve_left fun h => h0 h.1
      omega
    have hbehind : ∀ w, v' ≤ w → w / 512 ^ (d + 1) ≠ i := by
      intro w hw hdiv
      rw [Nat.div_eq_iff hS] at hdiv
      rw [Nat.add_mul, Nat.one_mul] at hstop
      omega
    obtain ⟨h3, h4⟩ := h'.exact (hpos hp) fun w hw1 hw2 hw3 => by
      rw [h.other w (by omega) (hbehind w hw1)]
      exact hno w (by omega) hw2 (by omega)
    refine ⟨by omega, fun w hw1 hw2 hw3 => ?_⟩
    by_cases hw : w < v'
    · rcases h'.erased w (by omega) with hr | ⟨hr, -⟩
      · rw [hr]
        exact h2 w hw1 (by omega) hw3
      · exact hr
    · exact h4 w (by omega) hw2 (by omega)

/-- The address the unmap goes on at behind an entry, and the pages that are left of it. -/
theorem EntryUnmapped.rest {va : ℕ} {pages₁ : ℤ} (hd : d + 1 ≤ 2)
    (h : EntryUnmapped K x x' d t b i v pages pages₁) (h0 : pages₁ ≠ 0) (hi : i + 1 < 512)
    (hhi : v < (i + 1) * 512 ^ (d + 1)) (hva : position (d + 1) va = v)
    (hK : ∀ w, InRange v pages w → ¬ K (b + w)) :
    ∃ v' : ℕ, (v' : ℤ) = v + (pages - pages₁) ∧ (i + 1) * 512 ^ (d + 1) ≤ v' ∧
      v' < (i + 1 + 1) * 512 ^ (d + 1) ∧ position (d + 1) (advance va (pages - pages₁)) = v' ∧
      ∀ w, InRange v' pages₁ w → ¬ K (b + w) := by
  obtain ⟨v', hv', hlo', hhi', hpos, hneg⟩ := h.next_eq h0 hhi
  refine ⟨v', hv', hlo', hhi', ?_, fun w hw => ?_⟩
  · have hlt : v' < 512 ^ (d + 1 + 1) := by
      refine lt_of_lt_of_le hhi' ?_
      rw [pow_succ' 512 (d + 1)]
      exact Nat.mul_le_mul_right _ (by omega)
    have hadv : pages - pages₁ = (v' - v : ℕ) := by omega
    rw [hadv, position_advance hd, hva, Nat.mod_eq_of_lt (by omega)]
    omega
  · exact hK w (hw.of_later (by omega) fun hp => ⟨hpos hp, by omega⟩)

theorem unmapDir_spec (hnext : UnmapSpec K d next) (hd : d + 1 ≤ 2) (n : ℕ) (x : Memory A)
    (va : ℕ) (pages : ℤ) (hn : n < 512) (hinv : TableInv K x (d + 1) t b) (v : ℕ)
    (hlo : (511 - n) * 512 ^ (d + 1) ≤ v) (hhi : v < (511 - n + 1) * 512 ^ (d + 1))
    (hva : position (d + 1) va = v) (hK : ∀ w, InRange v pages w → ¬ K (b + w)) :
    ∃ pages' x', unmapDir next (1 - d) t (n + 1) x va pages = some (pages', x') ∧
    Unmapped K x x' (d + 1) t b v (512 ^ (d + 1 + 1)) (512 ^ (d + 1)) pages pages' ∧
    pages - pages' ≤ ((n + 1) * 512 ^ (d + 1) : ℕ) ∧
    (pages - pages' = ((n + 1) * 512 ^ (d + 1) : ℕ) →
      ∀ j, 511 - n ≤ j → j < 512 → x'.words t j = 0) ∧
    ∀ j < 511 - n, x'.words t j = x.words t j := by
  have htop : 512 ^ (d + 1 + 1) = 512 * 512 ^ (d + 1) := pow_succ' 512 (d + 1)
  induction n generalizing x va pages v with
  | zero =>
    have hpos := position_entry hlo hhi hva
    obtain ⟨pages', x', heq, h⟩ := unmapEntry_spec (i := 511 - 0) hnext hd hinv (by norm_num) va
      pages (by rw [hpos]; exact hK)
    rw [hpos] at h
    refine ⟨pages', x', ?_, ?_, ?_, ?_, fun j hj => h.words j (by omega)⟩
    · rw [unmapDir, pteNums_eq, heq]
      by_cases h0 : pages' = 0
      · exact if_pos h0
      · exact if_neg h0
    · rw [htop]
      exact h.unmapped
    · rw [Nat.zero_add, Nat.one_mul]
      exact h.bound
    · intro hfull j hj1 hj2
      rw [Nat.zero_add, Nat.one_mul] at hfull
      obtain rfl : j = 511 - 0 := by omega
      exact h.emptied hfull
  | succ n ih =>
    have hidx : 511 - (n + 1) + 1 = 511 - n := by omega
    have hpos := position_entry hlo hhi hva
    obtain ⟨pages₁, x₁, heq, h⟩ := unmapEntry_spec (i := 511 - (n + 1)) hnext hd hinv (by omega)
      va pages (by rw [hpos]; exact hK)
    rw [hpos] at h
    have hstop : (511 - (n + 1) + 1) * 512 ^ (d + 1) ≤ 512 ^ (d + 1 + 1) := by
      rw [htop]
      exact Nat.mul_le_mul_right _ (by omega)
    have hsum : (n + 1 + 1) * 512 ^ (d + 1) = (n + 1) * 512 ^ (d + 1) + 512 ^ (d + 1) := by
      rw [Nat.add_mul (n + 1), Nat.one_mul]
    have hmul : 512 ^ (d + 1) ≤ (n + 1) * 512 ^ (d + 1) := Nat.le_mul_of_pos_left _ (by omega)
    rw [unmapDir, pteNums_eq, show 512 - (n + 1 + 1) = 511 - (n + 1) by omega, heq]
    dsimp only
    have hbound := h.bound
    by_cases h0 : pages₁ = 0
    · subst h0
      rw [if_pos rfl]
      refine ⟨0, x₁, rfl, h.unmapped.of_done hhi hstop, by omega, ?_,
        fun j hj => h.words j (by omega)⟩
      intro hfull
      omega
    · rw [if_neg h0]
      obtain ⟨v', hv', hlo', hhi', hva', hK'⟩ := h.rest hd h0 (by omega) hhi hva hK
      rw [hidx] at hlo' hhi'
      obtain ⟨pages', x', heq', h1, h2, h3, h4⟩ := ih x₁ (advance va (pages - pages₁)) pages₁
        (by omega) h.unmapped.step.inv v' hlo' hhi' hva' hK'
      refine ⟨pages', x', heq', h.cons hhi h0 hv' h1 hstop le_rfl, by omega, ?_, ?_⟩
      · intro hfull j hj1 hj2
        by_cases hj : j = 511 - (n + 1)
        · rw [hj, h4 _ (by omega)]
          exact h.emptied (by omega)
        · exact h3 (by omega) j (by omega) hj2
      · intro j hj
        rw [h4 j (by omega)]
        exact h.words j (by omega)

/-- `riscv_unmap` on every level. -/
theorem unmap_spec (K : ℕ → Prop) (d : ℕ) (hd : d ≤ 2) :
    UnmapSpec (A := A) K d (riscvUnmap d) := by
  induction d with
  | zero => exact unmap_leaves K
  | succ d ih =>
    intro t x va pages b hinv hK
    have hS : 0 < 512 ^ (d + 1) := pow_pos (by norm_num) _
    have hv := position_lt (d + 1) va
    have hidx : sv39Index2Id va (1 - d) = position (d + 1) va / 512 ^ (d + 1) := by
      have := index_eq (d := d + 1) hd va
      rwa [show 2 - (d + 1) = 1 - d by omega] at this
    have hlt : position (d + 1) va / 512 ^ (d + 1) < 512 := by
      rw [Nat.div_lt_iff_lt_mul hS, ← pow_succ']
      exact hv
    have hcnt : 511 - (511 - position (d + 1) va / 512 ^ (d + 1)) =
        position (d + 1) va / 512 ^ (d + 1) := by omega
    obtain ⟨pages', x', heq, h1, h2, h3, -⟩ := unmapDir_spec (ih (by omega)) hd
      (511 - position (d + 1) va / 512 ^ (d + 1)) x va pages (by omega) hinv
      (position (d + 1) va) (by rw [hcnt]; exact Nat.div_mul_le_self _ _)
      (by rw [hcnt]; exact (Nat.div_lt_iff_lt_mul hS).1 (Nat.lt_succ_self _)) rfl hK
    have htop : 512 ^ (d + 1 + 1) = 512 * 512 ^ (d + 1) := pow_succ' 512 (d + 1)
    have hle : (511 - position (d + 1) va / 512 ^ (d + 1) + 1) * 512 ^ (d + 1) ≤
        512 ^ (d + 1 + 1) := by
      rw [htop]
      exact Nat.mul_le_mul_right _ (by omega)
    refine ⟨pages', x', ?_, h1, by omega, ?_⟩
    · rw [riscvUnmap, hidx, pteNums_eq, show 512 - position (d + 1) va / 512 ^ (d + 1) =
        511 - position (d + 1) va / 512 ^ (d + 1) + 1 by omega]
      exact heq
    · intro hfull j hj
      -- the whole span was passed only if the unmap began with the first entry
      have h512 : 511 - position (d + 1) va / 512 ^ (d + 1) + 1 = 512 := by
        by_contra hne
        have hmul := Nat.mul_lt_mul_of_pos_right
          (show 511 - position (d + 1) va / 512 ^ (d + 1) + 1 < 512 by omega) hS
        omega
      rw [h512, ← htop] at h3
      exact h3 hfull j (by omega) hj

end Memory

end AcoOs
