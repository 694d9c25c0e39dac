/-
What `riscv_free_pgtable` does.

Every table below the root is unlinked and freed, and the root is left without a valid
entry.  The root itself is not freed.  Neither this nor `riscv_unmap` takes a page: what is
free before is free afterwards.
-/
import AcoOs.PageTableRun

namespace AcoOs

open Radix

variable {L : VmLayout} {A : PageAllocator L.toLayout}

namespace Memory

variable {x x' : Memory A} {d t b : ℕ}

/-- No position is pinned: every table can be freed. -/
def noPin (_ : ℕ) : Prop := False

/-- The table has no table below it and no valid entry. -/
structure Cleared (x : Memory A) (d t : ℕ) : Prop where
  tables : x.tables d t = {t}
  not_valid : ∀ w < 512 ^ (d + 1), ¬ x.ValidAt d t w

/-- What is proved of `riscv_free_pgtable` on one level, for use one level up. -/
def FreeSpec (d : ℕ) (next : ℕ → Memory A → Option (Memory A)) : Prop :=
  ∀ t x b, TableInv noPin x d t b → ∃ x', next t x = some x' ∧
    TableStep noPin x x' d t b ∧ Cleared x' d t

theorem Cleared.of_words (h : ∀ j < 512, x.words t j = 0) : Cleared x d t where
  tables := tables_of_empty h
  not_valid w hw := by
    rintro ⟨e, he, hv⟩
    have h0 : e = 0 := leaf_of_empty (F := sv39Format L) h hw he
    rw [h0] at hv
    exact not_pteValid_zero hv

theorem freeLeaves_spec (n : ℕ) (x : Memory A) (hn : n ≤ 512) (hinv : TableInv noPin x 0 t b) :
    TableStep noPin x (freeLeaves t n x) 0 t b ∧
    (∀ j, 512 - n ≤ j → j < 512 → ¬ PteValid ((freeLeaves t n x).words t j)) ∧
    ∀ j < 512 - n, (freeLeaves t n x).words t j = x.words t j := by
  induction n generalizing x with
  | zero => exact ⟨.refl hinv, fun j h1 h2 => by omega, fun _ _ => rfl⟩
  | succ n ih =>
    rw [freeLeaves, pteNums_eq]
    set x₁ := if PteValid (x.words t (512 - (n + 1))) then x.setWord t (512 - (n + 1)) 0 else x
      with hx₁
    have hstep : TableStep noPin x x₁ 0 t b := by
      rw [hx₁]
      split_ifs
      · exact .setLeaf hinv fun hk => absurd hk id
      · exact .refl hinv
    have hword : ∀ j, j ≠ 512 - (n + 1) → x₁.words t j = x.words t j := by
      intro j hj
      rw [hx₁]
      split_ifs
      · rw [setWord_words, if_neg fun h => hj h.2]
      · rfl
    have hclear : ¬ PteValid (x₁.words t (512 - (n + 1))) := by
      rw [hx₁]
      split_ifs with hv
      · rw [setWord_words, if_pos ⟨rfl, rfl⟩]
        exact not_pteValid_zero
      · exact hv
    obtain ⟨h1, h2, h3⟩ := ih x₁ (by omega) hstep.inv
    refine ⟨hstep.trans h1, fun j hj1 hj2 => ?_, fun j hj => ?_⟩
    · by_cases hj : j = 512 - (n + 1)
      · rw [hj, h3 _ (by omega)]
        exact hclear
      · exact h2 j (by omega) hj2
    · rw [h3 j (by omega), hword j (by omega)]

theorem free_leaves : FreeSpec (A := A) 0 (riscvFreePgtable 0) := by
  intro t x b hinv
  obtain ⟨h1, h2, -⟩ := freeLeaves_spec 512 x le_rfl hinv
  generalize hy : freeLeaves t 512 x = y at h1 h2
  refine ⟨y, by rw [riscvFreePgtable, pteNums_eq, hy], h1, tables_zero y t, fun w hw => ?_⟩
  rintro ⟨e, he, hv⟩
  cases he
  rw [zero_add, pow_one] at hw
  exact h2 w (by omega) hw hv

variable {next : ℕ → Memory A → Option (Memory A)}

theorem freeEntry_spec (hnext : FreeSpec d next) (hinv : TableInv noPin x (d + 1) t b) {i : ℕ}
    (hi : i < 512) : ∃ x', freeEntry next t i x = some x' ∧ TableStep noPin x x' (d + 1) t b ∧
      x'.words t i = 0 ∧ ∀ j, j ≠ i → x'.words t j = x.words t j := by
  unfold freeEntry
  cases hn : (sv39Format L).next (x.words t i) with
  | none =>
    have h0 : x.words t i = 0 := hinv.tree.empty_of_next hi hn
    rw [h0, if_neg fun h => not_pteValid_zero h.1, if_pos not_pteValid_zero]
    exact ⟨x, rfl, .refl hinv, h0, fun _ _ => rfl⟩
  | some t' =>
    obtain ⟨hp, ht⟩ := nextPgtable_eq hn
    rw [if_pos hp, ht]
    obtain ⟨x₁, h1, hs, hc⟩ := hnext t' x _ (hinv.child hi hn).1
    dsimp only
    rw [h1]
    dsimp only
    have hentry := hs.entry hinv hi hn
    have hroot := hs.frame t (hinv.apart t (root_mem_tables x _ t)) (hinv.tree.child hi hn).2
    have hstep := hentry.tableStep hinv hi
    have hn₁ : (sv39Format L).next (x₁.words t i) = some t' := by rw [hroot.1, hn]
    obtain ⟨x₂, h2, hw, hu⟩ := EntryStep.unlink hstep.inv hi hn₁ hc.tables hc.not_valid
    refine ⟨x₂, h2, hstep.trans (hu.tableStep hstep.inv hi), ?_, fun j hj => ?_⟩
    · rw [hw, setWord_words, if_pos ⟨rfl, rfl⟩]
    · rw [hw, setWord_words, if_neg fun h => hj h.2, hroot.1]

theorem freeDir_spec (hnext : FreeSpec d next) (n : ℕ) (x : Memory A) (hn : n ≤ 512)
    (hinv : TableInv noPin x (d + 1) t b) : ∃ x', freeDir next t n x = some x' ∧
      TableStep noPin x x' (d + 1) t b ∧ (∀ j, 512 - n ≤ j → j < 512 → x'.words t j = 0) ∧
      ∀ j < 512 - n, x'.words t j = x.words t j := by
  induction n generalizing x with
  | zero => exact ⟨x, rfl, .refl hinv, fun j h1 h2 => by omega, fun _ _ => rfl⟩
  | succ n ih =>
    obtain ⟨x₁, h1, hs, h0, hother⟩ :=
      freeEntry_spec hnext hinv (i := 512 - (n + 1)) (by omega)
    obtain ⟨x₂, h2, hs', hz, hsame⟩ := ih x₁ (by omega) hs.inv
    refine ⟨x₂, ?_, hs.trans hs', fun j hj1 hj2 => ?_, fun j hj => ?_⟩
    · rw [freeDir, pteNums_eq, h1]
      exact h2
    · by_cases hj : j = 512 - (n + 1)
      · rw [hj, hsame _ (by omega), h0]
      · exact hz j (by omega) hj2
    · rw [hsame j (by omega), hother j (by omega)]

/-- `riscv_free_pgtable` on every level. -/
theorem free_spec (d : ℕ) : FreeSpec (A := A) d (riscvFreePgtable d) := by
  induction d with
  | zero => exact free_leaves
  | succ d ih =>
    intro t x b hinv
    obtain ⟨x', h1, h2, h3, -⟩ := freeDir_spec ih 512 x le_rfl hinv
    exact ⟨x', h1, h2, .of_words fun j hj => h3 j (by omega) hj⟩

/-! ### No page is taken -/

/-- The pages that are free stay free. -/
def Frees (x x' : Memory A) : Prop := x.freePages ⊆ x'.freePages

theorem Frees.trans {x'' : Memory A} (h : x.Frees x') (h' : x'.Frees x'') : x.Frees x'' :=
  Set.Subset.trans h h'

theorem bkpFree_frees {p : ℕ} (h : x.bkpFree p = some x') : x.Frees x' := by
  unfold bkpFree at h
  split_ifs at h
  split at h
  · cases h
  · rename_i s hs
    cases h
    cases hb : A.blocks x.buddy p with
    | none =>
      rw [A.free_none x.buddy p hb] at hs
      cases hs
    | some k =>
      obtain ⟨s', hs', hfree, -⟩ := PageAllocator.free_some (A := A) hb
      rw [hs] at hs'
      cases hs'
      exact fun q hq => hfree.symm.subset (.inl hq)

theorem bkFree_frees {p : ℕ} (h : x.bkFree p = some x') : x.Frees x' := by
  unfold bkFree at h
  split_ifs at h
  · exact bkpFree_frees h
  · cases h
    exact subset_rfl

theorem unmapLeaves_frees (n : ℕ) (x : Memory A) (pages : ℤ) :
    x.Frees (unmapLeaves t n x pages).2 := by
  induction n generalizing x pages with
  | zero => exact subset_rfl
  | succ n ih =>
    rw [unmapLeaves]
    split_ifs
    · exact subset_rfl
    · exact ih (x.setWord t (pteNums - (n + 1)) 0) _

section

variable {next : ℕ → Memory A → ℕ → ℤ → Option (ℤ × Memory A)} {i index va : ℕ} {pages pages' : ℤ}

theorem unmapEntry_frees
    (hnext : ∀ t x va pages pages' x', next t x va pages = some (pages', x') → x.Frees x')
    (h : unmapEntry next index t i x va pages = some (pages', x')) : x.Frees x' := by
  unfold unmapEntry at h
  split_ifs at h
  · split at h
    · cases h
    · split at h
      · cases h
      · rename_i t' _ _ _ y hy
        have h1 := hnext _ _ _ _ _ _ hy
        split_ifs at h
        · split at h
          · cases h
          · rename_i z hz
            cases h
            exact h1.trans (bkFree_frees (x := y.setWord t i 0) hz)
        · cases h
          exact h1
  · cases h
    exact subset_rfl
  · cases h
    exact subset_rfl

theorem unmapDir_frees
    (hnext : ∀ t x va pages pages' x', next t x va pages = some (pages', x') → x.Frees x')
    (n : ℕ) (x : Memory A) (va : ℕ) (pages : ℤ)
    (h : unmapDir next index t n x va pages = some (pages', x')) : x.Frees x' := by
  induction n generalizing x va pages with
  | zero =>
    cases h
    exact subset_rfl
  | succ n ih =>
    rw [unmapDir] at h
    split at h
    · cases h
    · rename_i hentry
      have h1 := unmapEntry_frees hnext hentry
      split_ifs at h
      · cases h
        exact h1
      · exact h1.trans (ih _ _ _ h)

end

theorem riscvUnmap_frees (d : ℕ) : ∀ t (x : Memory A) va pages pages' x',
    riscvUnmap d t x va pages = some (pages', x') → x.Frees x' := by
  induction d with
  | zero =>
    intro t x va pages pages' x' h
    have h1 := unmapLeaves_frees (t := t) (pteNums - sv39Index2Id va 2) x pages
    rw [Option.some.inj h] at h1
    exact h1
  | succ d ih =>
    intro t x va pages pages' x' h
    exact unmapDir_frees ih _ _ _ _ h

theorem hwUnmap_frees {va size : ℕ} (h : x.hwUnmap t va size = some x') : x.Frees x' := by
  unfold hwUnmap at h
  split_ifs at h
  · cases h
    exact subset_rfl
  · split at h
    · cases h
    · rename_i hun
      split_ifs at h
      cases h
      exact riscvUnmap_frees 2 _ _ _ _ _ _ hun

theorem freeLeaves_frees (n : ℕ) (x : Memory A) : x.Frees (freeLeaves t n x) := by
  induction n generalizing x with
  | zero => exact subset_rfl
  | succ n ih =>
    rw [freeLeaves]
    split_ifs
    · exact ih (x.setWord t (pteNums - (n + 1)) 0)
    · exact ih x

theorem freeDir_frees {next : ℕ → Memory A → Option (Memory A)}
    (hnext : ∀ t x x', next t x = some x' → x.Frees x') (n : ℕ) (x : Memory A)
    (h : freeDir next t n x = some x') : x.Frees x' := by
  induction n generalizing x with
  | zero =>
    cases h
    exact subset_rfl
  | succ n ih =>
    rw [freeDir] at h
    split at h
    · cases h
    · rename_i y hentry
      refine Frees.trans ?_ (ih _ h)
      unfold freeEntry at hentry
      split_ifs at hentry
      · split at hentry
        · cases hentry
        · split at hentry
          · cases hentry
          · rename_i z hz
            exact (hnext _ _ _ hz).trans
              (bkFree_frees (x := z.setWord t (pteNums - (n + 1)) 0) hentry)
      · cases hentry
        exact subset_rfl

theorem riscvFreePgtable_frees (d : ℕ) : ∀ t (x x' : Memory A),
    riscvFreePgtable d t x = some x' → x.Frees x' := by
  induction d with
  | zero =>
    intro t x x' h
    have h1 := freeLeaves_frees (t := t) pteNums x
    rw [Option.some.inj h] at h1
    exact h1
  | succ d ih => exact fun t x x' h => freeDir_frees ih _ _ h

end Memory

end AcoOs
