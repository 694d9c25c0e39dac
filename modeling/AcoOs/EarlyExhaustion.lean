/-
What the page table of the boot code reports when the free pages run out.

`vm_walkthrough` does not look at the return value of the call for a table that it has just taken.
So a walk that needs two tables and gets one returns 0 and has mapped nothing.

* **`vmMmap_reports_iff`** — a return value of 0 means that all pages are mapped if and only if the
  free pages do not end between the two tables of one page, with nothing behind it that would
  report it (`Unnoticed`).
-/
import AcoOs.EarlyPages

namespace AcoOs

open Radix

namespace EarlyMemory

variable {x y : EarlyMemory} {t k n v w e flags va pa : ℕ}

/-! ### The pages of a range -/

/-- The tables that the walk to page `k` of a range takes, behind the walks to the pages before. -/
def fresh (x : EarlyMemory) (t v : ℕ) : ℕ → ℕ
  | 0 => x.missing 2 t v
  | k + 1 => min (x.missing 2 t (v + (k + 1))) (tablesBehind (v + k) 1)

/-- The tables that the walks to the first `k` pages of a range take. -/
def need (x : EarlyMemory) (t v k : ℕ) : ℕ := ∑ j ∈ Finset.range k, x.fresh t v j

/-- One page of the range finds a single free page for the two tables that it needs, and the pages
behind it have their tables. -/
def Unnoticed (x : EarlyMemory) (t v n : ℕ) : Prop :=
  (∀ i < n, ¬ x.ValidAt 2 t (v + i)) ∧
  ∃ i < n, x.fresh t v i = 2 ∧ x.sizeFree / pageSize = x.need t v i + 1 ∧
    ∀ j < n, i < j → x.missing 2 t (v + j) = 0

theorem tablesBehind_le_meet (h : v ≤ w) : tablesBehind w 1 ≤ meet 2 v (w + 1) := by
  rw [meet_two, tablesBehind]
  split_ifs <;> omega

theorem tablesBehind_le_two (v : ℕ) : tablesBehind v 1 ≤ 2 := by
  rw [tablesBehind]
  omega

/-- Behind the beginning of a table of the first level the ways share the root only. -/
theorem meet_of_tablesBehind (h : tablesBehind w 1 = 2) (hv : v ≤ w) {u : ℕ} (hu : w < u) :
    meet 2 v u = 2 := by
  rw [tablesBehind] at h
  rw [meet_two, if_neg]
  omega

section Entered

variable (hp : OnPath x y 2 t v) (he : Entered x y 2 t v e)
  (hsize : y.sizeFree + x.missing 2 t v * pageSize = x.sizeFree)

include hp he

theorem missing_entered (hw : w < tableSpan) :
    y.missing 2 t w = min (x.missing 2 t w) (meet 2 v w) := by
  have h0 : y.missing 2 t v = 0 := missing_eq_zero_iff.2 (by
    rw [he.entry]
    exact Option.some_ne_none e)
  rw [hp.missing w hw, h0, Nat.max_zero]

/-- What the rest of the range needs. -/
theorem fresh_entered (hk : v + 1 + k < tableSpan) :
    y.fresh t (v + 1) k = x.fresh t v (k + 1) := by
  cases k with
  | zero =>
    rw [fresh, fresh, missing_entered hp he hk, Nat.add_zero, meet_succ]
    rfl
  | succ k =>
    have hle := tablesBehind_le_meet (v := v) (w := v + 1 + k) (by omega)
    rw [fresh, fresh, missing_entered hp he hk, show v + (k + 1 + 1) = v + 1 + (k + 1) by omega,
      show v + (k + 1) = v + 1 + k by omega, min_assoc]
    exact congrArg _ (min_eq_right hle)

theorem need_entered (hk : v + k < tableSpan) :
    x.need t v (k + 1) = y.need t (v + 1) k + x.missing 2 t v := by
  rw [need, need, Finset.sum_range_succ']
  refine congrArg (· + x.missing 2 t v) (Finset.sum_congr rfl fun j hj => ?_)
  rw [Finset.mem_range] at hj
  exact (fresh_entered hp he (by omega)).symm

include hsize

/-- After the first page it is the rest of the range that matters. -/
theorem unnoticed_entered (hend : v + (n + 1) ≤ tableSpan) :
    x.Unnoticed t v (n + 1) ↔ y.Unnoticed t (v + 1) n := by
  have hvalid : ∀ i, v + 1 + i < tableSpan →
      (y.ValidAt 2 t (v + 1 + i) ↔ x.ValidAt 2 t (v + (i + 1))) := by
    intro i hi
    rw [(hp.rest _ hi (by omega)).validAt_iff, show v + 1 + i = v + (i + 1) by omega]
  have hpages : x.sizeFree / pageSize = y.sizeFree / pageSize + x.missing 2 t v := by
    rw [← hsize]
    exact Nat.add_mul_div_right _ _ (by decide)
  -- the pages behind one that needs two tables
  have hbehind : ∀ i < n, x.fresh t v (i + 1) = 2 → ∀ j < n, i < j →
      y.missing 2 t (v + 1 + j) = x.missing 2 t (v + (j + 1)) := by
    intro i hi hfresh j hj hij
    have h2 : tablesBehind (v + i) 1 = 2 :=
      le_antisymm (tablesBehind_le_two _) (hfresh.symm.le.trans (min_le_right _ _))
    rw [missing_entered hp he (by omega),
      meet_of_tablesBehind h2 (Nat.le_add_right v i) (by omega),
      min_eq_left (missing_le x 2 t _), show v + 1 + j = v + (j + 1) by omega]
  constructor
  · rintro ⟨hno, i, hi, hfresh, hpage, hrest⟩
    refine ⟨fun j hj => by rw [hvalid j (by omega)]; exact hno (j + 1) (by omega), ?_⟩
    cases i with
    | zero =>
      -- the first page has got its tables
      have h2 : x.missing 2 t v = 2 := hfresh
      have h1 : x.sizeFree / pageSize = 0 + 1 := hpage
      rw [hpages, h2] at h1
      exact absurd (Nat.succ.inj h1) (Nat.succ_ne_zero _)
    | succ i =>
      rw [need_entered hp he (by omega), hpages] at hpage
      refine ⟨i, by omega, ?_, by omega, fun j hj hij => ?_⟩
      · rw [fresh_entered hp he (by omega)]
        exact hfresh
      · rw [hbehind i (by omega) hfresh j hj hij]
        exact hrest (j + 1) (by omega) (by omega)
  · rintro ⟨hno, i, hi, hfresh, hpage, hrest⟩
    rw [fresh_entered hp he (by omega)] at hfresh
    refine ⟨fun j hj => ?_, i + 1, by omega, hfresh, ?_, fun j hj hij => ?_⟩
    · cases j with
      | zero => exact he.empty
      | succ j =>
        rw [← hvalid j (by omega)]
        exact hno j (by omega)
    · rw [need_entered hp he (by omega), hpages]
      omega
    · cases j with
      | zero => omega
      | succ j =>
        rw [← hbehind i hi hfresh j (by omega) (by omega)]
        exact hrest j (by omega) (by omega)

end Entered

/-- When the first page runs out of pages, the rest of the range has to be there. -/
theorem unnoticed_first (hp : OnPath x y 2 t v) (hno : ¬ x.ValidAt 2 t v)
    (hpos : pageSize ≤ x.sizeFree) (hm : x.sizeFree < x.missing 2 t v * pageSize)
    (hleaf : y.leaf 2 t v = none) (hend : v + (n + 1) ≤ tableSpan) :
    x.Unnoticed t v (n + 1) ↔
      ∀ i < n, y.missing 2 t (v + 1 + i) = 0 ∧ ¬ y.ValidAt 2 t (v + 1 + i) := by
  have hle := missing_le x 2 t v
  have h2 : x.missing 2 t v = 2 := by
    by_contra hne
    have := Nat.mul_le_mul_right pageSize (show x.missing 2 t v ≤ 1 by omega)
    omega
  have h1 : x.sizeFree / pageSize = 1 := by
    rw [h2] at hm
    exact Nat.div_eq_of_lt_le (by omega) (by omega)
  have hvalid : ∀ i, v + 1 + i < tableSpan →
      (y.ValidAt 2 t (v + 1 + i) ↔ x.ValidAt 2 t (v + (i + 1))) := by
    intro i hi
    rw [(hp.rest _ hi (by omega)).validAt_iff, show v + 1 + i = v + (i + 1) by omega]
  have hmissing : ∀ i, v + 1 + i < tableSpan →
      (y.missing 2 t (v + 1 + i) = 0 ↔ x.missing 2 t (v + (i + 1)) = 0) := by
    intro i hi
    have hpos := missing_pos_of_none hleaf
    rw [hp.missing _ hi, show v + 1 + i = v + (i + 1) by omega]
    omega
  constructor
  · rintro ⟨hfree, i, hi, hfresh, hpage, hrest⟩ j hj
    cases i with
    | zero =>
      rw [hmissing j (by omega), hvalid j (by omega)]
      exact ⟨hrest (j + 1) (by omega) (by omega), hfree (j + 1) (by omega)⟩
    | succ i =>
      have hneed : x.missing 2 t v ≤ x.need t v (i + 1) := by
        rw [need, Finset.sum_range_succ']
        exact Nat.le_add_left _ _
      omega
  · intro h
    refine ⟨fun i hi => ?_, 0, Nat.succ_pos n, h2, h1, fun j hj hij => ?_⟩
    · cases i with
      | zero => exact hno
      | succ i =>
        rw [← hvalid i (by omega)]
        exact (h i (by omega)).2
    · cases j with
      | zero => omega
      | succ j =>
        rw [← hmissing j (by omega)]
        exact (h j (by omega)).1

/-! ### The loop -/

/-- The entries outside of the range stay. -/
theorem loop_frame (flags n : ℕ) (hx : x.Ok) (ht : x.IsTable 2 t) (hva : va % pageSize = 0)
    (hpa : pa % pageSize = 0) (hv : 0 < n → position 2 va = v) (hend : v + n ≤ tableSpan)
    (hw : w < tableSpan) (hor : w < v ∨ v + n ≤ w) :
    SameOrNew x (vmMmapLoop flags t n x va pa).2 2 t w := by
  induction n generalizing x va pa v with
  | zero => exact .inl rfl
  | succ n ih =>
    obtain ⟨ret, y, heq, hstep, hpath, -⟩ := walk_end flags 2 le_rfl hx ht hva hpa
    rw [hv (Nat.succ_pos n)] at hpath
    have hy : SameOrNew x y 2 t w := hpath.rest w hw (by omega)
    rw [vmMmapLoop, heq]
    dsimp only
    by_cases hret : ret = 0
    · rw [if_neg (not_not.2 hret)]
      exact hy.trans (ih (v := v + 1) hstep.ok hstep.table (advance_aligned hva)
        (advance_aligned hpa) (fun hn => position_next (hv (Nat.succ_pos n)) (by omega)) (by omega)
        (by omega))
    · rw [if_pos hret]
      exact hy

/-- Without a free page the loop goes through if and only if all tables are there. -/
theorem loop_no_page (flags n : ℕ) (hx : x.Ok) (ht : x.IsTable 2 t) (hva : va % pageSize = 0)
    (hpa : pa % pageSize = 0) (hv : 0 < n → position 2 va = v) (hend : v + n ≤ tableSpan)
    (hsize : x.sizeFree < pageSize) :
    (vmMmapLoop flags t n x va pa).1 = 0 ↔
      ∀ i < n, x.missing 2 t (v + i) = 0 ∧ ¬ x.ValidAt 2 t (v + i) := by
  induction n generalizing x va pa v with
  | zero => exact iff_of_true rfl fun i hi => absurd hi (Nat.not_lt_zero i)
  | succ n ih =>
    have hpos := hv (Nat.succ_pos n)
    obtain ⟨ret, y, heq, hstep, hpath, hend'⟩ := walk_end flags 2 le_rfl hx ht hva hpa
    rw [hpos] at hpath hend'
    rw [vmMmapLoop, heq]
    dsimp only
    cases hend' with
    | found h _ _ =>
      rw [if_pos (by decide)]
      exact iff_of_false (show -eexist ≠ 0 by decide) fun hall => (hall 0 (Nat.succ_pos n)).2 h
    | refused _ hm _ _ _ =>
      rw [if_pos (by decide)]
      exact iff_of_false (show -enomem ≠ 0 by decide) fun hall => hm.ne' (hall 0 (Nat.succ_pos n)).1
    | unnoticed h _ _ _ _ => exact absurd hsize (not_lt.2 h)
    | entered hsum he _ =>
      have hm : x.missing 2 t v = 0 := by
        by_contra hne
        have := Nat.le_mul_of_pos_left pageSize (Nat.pos_of_ne_zero hne)
        omega
      have hmissing : ∀ i, v + 1 + i < tableSpan →
          y.missing 2 t (v + 1 + i) = x.missing 2 t (v + (i + 1)) := by
        intro i hi
        have hle := missing_le_max x 2 t v (v + 1 + i)
        rw [hm, Nat.max_zero] at hle
        rw [missing_entered hpath he hi, min_eq_left hle, show v + 1 + i = v + (i + 1) by omega]
      have hvalid : ∀ i, v + 1 + i < tableSpan →
          (y.ValidAt 2 t (v + 1 + i) ↔ x.ValidAt 2 t (v + (i + 1))) := by
        intro i hi
        rw [(hpath.rest _ hi (by omega)).validAt_iff, show v + 1 + i = v + (i + 1) by omega]
      rw [if_neg (not_not.2 rfl), ih (v := v + 1) hstep.ok hstep.table (advance_aligned hva)
        (advance_aligned hpa) (fun hn => position_next hpos (by omega)) (by omega) (by omega)]
      constructor
      · intro h i hi
        cases i with
        | zero => exact ⟨hm, he.empty⟩
        | succ i =>
          rw [← hmissing i (by omega), ← hvalid i (by omega)]
          exact h i (by omega)
      · intro h i hi
        rw [hmissing i (by omega), hvalid i (by omega)]
        exact h (i + 1) (by omega)

theorem loop_reports_iff (n : ℕ) (hflags : flags % 2 = 1) (hx : x.Ok) (ht : x.IsTable 2 t)
    (hva : va % pageSize = 0) (hpa : pa % pageSize = 0) (hv : 0 < n → position 2 va = v)
    (hend : v + n ≤ tableSpan) :
    ((vmMmapLoop flags t n x va pa).1 = 0 → ∀ i < n,
      (vmMmapLoop flags t n x va pa).2.leaf 2 t (v + i) =
        some (sv39Pa2PTE (pa + i * pageSize) flags)) ↔ ¬ x.Unnoticed t v n := by
  induction n generalizing x va pa v with
  | zero =>
    refine iff_of_true (fun _ i hi => absurd hi (Nat.not_lt_zero i)) ?_
    rintro ⟨-, i, hi, -⟩
    exact absurd hi (Nat.not_lt_zero i)
  | succ n ih =>
    have hpos := hv (Nat.succ_pos n)
    obtain ⟨ret, y, heq, hstep, hpath, hend'⟩ := walk_end flags 2 le_rfl hx ht hva hpa
    rw [hpos] at hpath hend'
    have hnext : 0 < n → position 2 (advance va 1) = v + 1 := fun hn =>
      position_next hpos (by omega)
    have hframe := loop_frame (w := v) flags n hstep.ok hstep.table (advance_aligned hva)
      (advance_aligned hpa) hnext (by omega) (by omega) (.inl (Nat.lt_succ_self v))
    rw [vmMmapLoop, heq]
    dsimp only
    cases hend' with
    | found h _ _ =>
      rw [if_pos (by decide)]
      exact iff_of_true (fun h0 => absurd h0 (show -eexist ≠ 0 by decide)) fun hun =>
        hun.1 0 (Nat.succ_pos n) h
    | refused h _ _ _ _ =>
      rw [if_pos (by decide)]
      refine iff_of_true (fun h0 => absurd h0 (show -enomem ≠ 0 by decide)) ?_
      rintro ⟨-, i, -, -, hpage, -⟩
      rw [Nat.div_eq_of_lt h] at hpage
      exact absurd hpage (Nat.succ_ne_zero _).symm
    | entered hsum he _ =>
      rw [if_neg (not_not.2 rfl), unnoticed_entered hpath he hsum hend,
        ← ih hstep.ok hstep.table (advance_aligned hva) (advance_aligned hpa) hnext (by omega)]
      refine forall_congr' fun _ => ⟨fun h i hi => ?_, fun h i hi => ?_⟩
      · rw [sv39Pa2PTE_advance_add, show v + 1 + i = v + (i + 1) by omega]
        exact h (i + 1) (by omega)
      · cases i with
        | zero =>
          -- the entry of the first page stays
          rw [Nat.zero_mul, Nat.add_zero, Nat.add_zero]
          rcases hframe with hs | ⟨hs, -⟩
          · rw [hs, he.entry]
          · rw [he.entry] at hs
            cases hs
        | succ i =>
          have hi' := h i (by omega)
          rwa [sv39Pa2PTE_advance_add, show v + 1 + i = v + (i + 1) by omega] at hi'
    | unnoticed hpage hm hsize hleaf _ =>
      have hno : ¬ x.ValidAt 2 t v := by
        rintro ⟨e, he, -⟩
        have h0 : x.missing 2 t v = 0 := missing_eq_zero_iff.2 (by
          rw [he]
          exact Option.some_ne_none e)
        rw [h0, Nat.zero_mul] at hm
        exact absurd hm (Nat.not_lt_zero _)
      rw [if_neg (not_not.2 rfl), unnoticed_first hpath hno hpage hm hleaf hend,
        ← loop_no_page flags n hstep.ok hstep.table (advance_aligned hva) (advance_aligned hpa)
          hnext (by omega) hsize]
      refine ⟨fun h hret => ?_, fun h hret => absurd hret h⟩
      -- the first page has no entry
      have hent := h hret 0 (Nat.succ_pos n)
      rw [Nat.zero_mul, Nat.add_zero, Nat.add_zero] at hent
      rcases hframe with hs | ⟨-, hs⟩
      · rw [hs, hleaf] at hent
        cases hent
      · rw [hs] at hent
        have hvalid : PteValid (sv39Pa2PTE pa flags) := pteValid_pa2PTE.2 hflags
        rw [← Option.some.inj hent] at hvalid
        exact not_pteValid_zero hvalid

/-- Exactly when a return value of 0 of `vm_mmap` says that all pages of the range are mapped. -/
theorem vmMmap_reports_iff (x : EarlyMemory) (t va pa size flags : ℕ) (hx : x.Ok)
    (ht : x.IsTable 2 t) (hva : va % pageSize = 0) (hpa : pa % pageSize = 0)
    (hsize : size % pageSize = 0) (hend : va + size ≤ 2 ^ 39) (hflags : flags % 2 = 1) :
    ((x.vmMmap t va pa size flags).1 = 0 → ∀ i < size / pageSize,
      (x.vmMmap t va pa size flags).2.2.leaf 2 t (va / pageSize + i) =
        some (sv39Pa2PTE (pa + i * pageSize) flags)) ↔
      ¬ x.Unnoticed t (va / pageSize) (size / pageSize) := by
  have ht0 : t ≠ 0 := (ht.page t (root_mem_tables x 2 t)).1.1
  have hspan : va / pageSize + size / pageSize ≤ tableSpan := by
    rw [tableSpan_eq]
    simp only [pageSize, pageOffset] at *
    omega
  have hpos : 0 < size / pageSize → position 2 va = va / pageSize := fun h =>
    Nat.mod_eq_of_lt (show va / pageSize < tableSpan by omega)
  -- the loop decides, since the tests pass and the table is there
  have hloop := loop_reports_iff (size / pageSize) hflags hx ht hva hpa hpos hspan
  have heq : x.vmMmap t va pa size flags =
      ((vmMmapLoop flags t (size / pageSize) x va pa).1, t,
        (vmMmapLoop flags t (size / pageSize) x va pa).2) := by
    unfold vmMmap
    rw [if_neg (by rw [hva, hpa]; exact fun h => h rfl),
      if_neg (by rw [hsize]; exact fun h => h rfl), if_neg ht0]
    dsimp only
    rw [if_neg ht0, Nat.div_mul_cancel (Nat.dvd_of_mod_eq_zero hva),
      Nat.div_mul_cancel (Nat.dvd_of_mod_eq_zero hpa)]
  rw [heq]
  exact hloop

/-- With two free pages a page is mapped in an empty table. -/
theorem vmMmap_reports_two : let x : EarlyMemory := ⟨fun _ _ => 0, 4096, 8192, 0, false⟩
    (x.vmMmap 12288 0x3000000000 0x80200000 4096 11).1 = 0 → ∀ i < 4096 / pageSize,
      (x.vmMmap 12288 0x3000000000 0x80200000 4096 11).2.2.leaf 2 12288
        (0x3000000000 / pageSize + i) = some (sv39Pa2PTE (0x80200000 + i * pageSize) 11) := by
  refine (vmMmap_reports_iff _ _ _ _ _ _ ⟨by decide, by decide, by decide, fun _ _ _ _ => rfl⟩
    (isTable_of_clear (fun _ _ => rfl) (by decide) fun h => absurd h.2.2 (by decide)) (by decide)
    (by decide) (by decide) (by decide) (by decide)).2 ?_
  rintro ⟨-, i, hi, -, hpage, -⟩
  obtain rfl : i = 0 := Nat.lt_one_iff.1 hi
  exact absurd hpage (show ¬ 8192 / pageSize = 0 + 1 by decide)

/-- With one free page 0 is returned, and nothing is mapped. -/
theorem not_vmMmap_reports : let x : EarlyMemory := ⟨fun _ _ => 0, 4096, 4096, 0, false⟩
    x.Ok ∧ x.IsTable 2 8192 ∧
    ¬ ((x.vmMmap 8192 0x3000000000 0x80200000 4096 11).1 = 0 → ∀ i < 4096 / pageSize,
      (x.vmMmap 8192 0x3000000000 0x80200000 4096 11).2.2.leaf 2 8192
        (0x3000000000 / pageSize + i) = some (sv39Pa2PTE (0x80200000 + i * pageSize) 11)) := by
  refine ⟨⟨by decide, by decide, by decide, fun _ _ _ _ => rfl⟩,
    isTable_of_clear (fun _ _ => rfl) (by decide) fun h => absurd h.2.2 (by decide), fun h => ?_⟩
  exact absurd (h (by decide) 0 (by decide)) (by decide)

end EarlyMemory

end AcoOs
