/-
What the callers of `__arch_hw_mmap` and `__arch_hw_unmap_all` get.

`Installed` is what a caller of `__arch_hw_mmap` asks for.  In ranges below `2 ^ 39` success
means just that (`hw_mmap_installs`), and failure means that every page is translated as
before (`hw_mmap_rolls_back`).  Beyond, a mapping that reaches the end of the root table is
cut off, and `hw_mmap_installed_iff` says when success still means what the caller asked for.

`hw_unmap_all_frees` is about every page table that calls can make: its tables are given to
the buddy allocator one by one, and only they are.
-/
import AcoOs.PageTableRoom

namespace AcoOs

open Radix

variable {L : VmLayout} {A : PageAllocator L.toLayout}

theorem tableSpan_eq : tableSpan = 2 ^ 27 := by norm_num [tableSpan]

/-- The frame number in an entry is cut off below the 64 bits of an address. -/
theorem sv39Pa2PTE_advance (pa i prot : ℕ) :
    sv39Pa2PTE (advance pa i) prot = sv39Pa2PTE (pa + i * pageSize) prot := by
  rw [sv39Pa2PTE_eq, sv39Pa2PTE_eq, advance_eq]
  simp only [pageSize, pageOffset]
  omega

theorem position_add (va i : ℕ) :
    position 2 (va + i * pageSize) = (position 2 va + i) % tableSpan := by
  show (va + i * pageSize) / pageSize % tableSpan = (va / pageSize % tableSpan + i) % tableSpan
  rw [Nat.add_mul_div_right _ _ (by decide), Nat.mod_add_mod]

namespace Memory

variable {K : ℕ → Prop} {x x' : Memory A} {t va pa prot size w m : ℕ}

/-- A page table: its tables form a tree and are not free, and a table below the root can be
freed unless it holds a pinned entry. -/
structure IsPageTable (K : ℕ → Prop) (x : Memory A) (t : ℕ) : Prop where
  inv : TableInv K x 2 t 0
  pinned : ∀ w, K w → x.ValidAt 2 t w

/-- The leaf entry of a page, zero where the page table has no table for it. -/
def leafEntry (x : Memory A) (t w : ℕ) : ℕ := (x.leaf 2 t w).getD 0

/-- Every page of the range has the entry that was asked for, and no other page has another
entry than before. -/
structure Installed (x x' : Memory A) (t va pa prot size : ℕ) : Prop where
  entry : ∀ i < size / pageSize,
    x'.leafEntry t (position 2 (va + i * pageSize)) = sv39Pa2PTE (pa + i * pageSize) prot
  other : ∀ w < tableSpan, (∀ i < size / pageSize, (va + i * pageSize) % 2 ^ 64 ≠ w * pageSize) →
    x'.leafEntry t w = x.leafEntry t w

theorem validAt_iff : x.ValidAt 2 t w ↔ PteValid (x.leafEntry t w) := by
  unfold ValidAt leafEntry
  cases x.leaf 2 t w with
  | none => exact ⟨fun ⟨_, h, _⟩ => (nomatch h), fun h => absurd h not_pteValid_zero⟩
  | some e =>
    refine ⟨fun ⟨_, h, hv⟩ => ?_, fun h => ⟨e, rfl, h⟩⟩
    cases h
    exact hv

theorem leafEntry_eq_iff {e : ℕ} (he : PteValid e) :
    x.leafEntry t w = e ↔ x.leaf 2 t w = some e := by
  unfold leafEntry
  cases x.leaf 2 t w with
  | none =>
    refine ⟨fun h => ?_, nofun⟩
    rw [← show (0 : ℕ) = e from h] at he
    exact absurd he not_pteValid_zero
  | some e' => exact (Option.some.injEq e' e).symm ▸ Iff.rfl

theorem leafEntry_of_none (h : x.leaf 2 t w = none) : x.leafEntry t w = 0 := by
  rw [leafEntry, h]
  rfl

namespace Walked

variable (h : Walked K prot x x' 2 t 0 (position 2 va) pa m)

include h

theorem leafEntry_wrote {i : ℕ} (hi : i < m) :
    x'.leafEntry t (position 2 va + i) = sv39Pa2PTE (pa + i * pageSize) prot := by
  have := (h.wrote (position 2 va + i) (Nat.le_add_right _ _) (Nat.add_lt_add_left hi _)).2
  rw [Nat.add_sub_cancel_left, sv39Pa2PTE_advance] at this
  rw [leafEntry, this]
  rfl

theorem leafEntry_rest (hw : w < tableSpan) (hor : w < position 2 va ∨ position 2 va + m ≤ w) :
    x'.leafEntry t w = x.leafEntry t w := by
  rcases h.rest w hw hor with h1 | ⟨h1, h2⟩
  · rw [leafEntry, h1, leafEntry]
  · rw [leafEntry, h2, leafEntry, h1]
    rfl

/-- A walk that does as much as it was asked for, or reaches the end of the table, installs
the mapping just when what is left to do was there before. -/
theorem installed_iff (hva : va % pageSize = 0) (hva' : va < 2 ^ 64)
    (hm : size / pageSize ≤ tableSpan → m ≤ size / pageSize ∧
      (m = size / pageSize ∨ position 2 va + m = tableSpan)) :
    Installed x x' t va pa prot size ↔ size / pageSize ≤ tableSpan ∧
      ∀ i < size / pageSize, 2 ^ 39 ≤ va + i * pageSize →
        x.leafEntry t (position 2 (va + i * pageSize)) = sv39Pa2PTE (pa + i * pageSize) prot := by
  have hspan := tableSpan_eq
  have hend : position 2 va + m ≤ tableSpan := h.le
  have hpos : position 2 va = va / 4096 % 2 ^ 27 := rfl
  constructor
  · intro hin
    -- two pages that are a whole table apart would have the same entry
    have hn : size / pageSize ≤ tableSpan := by
      by_contra hlt
      have h0 := hin.entry 0 (by omega)
      have h1 := hin.entry tableSpan (by omega)
      rw [position_add] at h0 h1
      rw [Nat.add_mod_right, ← Nat.add_zero (position 2 va), h0, sv39Pa2PTE_eq,
        sv39Pa2PTE_eq] at h1
      simp only [pageSize, pageOffset] at h1
      omega
    refine ⟨hn, fun i hi hbeyond => ?_⟩
    rw [← hin.entry i hi, eq_comm, position_add]
    by_cases hlast : position 2 va + i < tableSpan
    · -- the page is not one of those below `2 ^ 39`
      refine hin.other _ (Nat.mod_lt _ (by omega)) fun j hj heq => ?_
      rw [Nat.mod_eq_of_lt hlast] at heq
      simp only [pageSize, pageOffset] at *
      omega
    · refine h.leafEntry_rest (Nat.mod_lt _ (by omega)) (.inl ?_)
      have hlt : position 2 va < tableSpan := position_lt 2 va
      rw [Nat.mod_eq_sub_mod (by omega), Nat.mod_eq_of_lt (by omega)]
      omega
  · rintro ⟨hn, hrest⟩
    have hlt : position 2 va < tableSpan := position_lt 2 va
    have hmn := hm hn
    refine ⟨fun i hi => ?_, fun w hw hout => ?_⟩
    · by_cases him : i < m
      · rw [position_add, Nat.mod_eq_of_lt (by omega), h.leafEntry_wrote him]
      · have hbeyond : 2 ^ 39 ≤ va + i * pageSize := by
          simp only [pageSize, pageOffset] at *
          omega
        rw [← hrest i hi hbeyond, position_add]
        refine h.leafEntry_rest (Nat.mod_lt _ (by omega)) (.inl ?_)
        rw [Nat.mod_eq_sub_mod (by omega), Nat.mod_eq_of_lt (by omega)]
        omega
    · by_cases hin : position 2 va ≤ w ∧ w < position 2 va + m
      · obtain ⟨i, rfl⟩ := Nat.exists_eq_add_of_le hin.1
        have hi : i < m := by omega
        have hat : position 2 (va + i * pageSize) = position 2 va + i := by
          rw [position_add, Nat.mod_eq_of_lt hw]
        rw [h.leafEntry_wrote hi]
        by_cases hbeyond : 2 ^ 39 ≤ va + i * pageSize
        · rw [← hrest i (by omega) hbeyond, hat]
        · refine absurd ?_ (hout i (by omega))
          simp only [pageSize, pageOffset] at *
          omega
      · exact h.leafEntry_rest hw (by omega)

end Walked

end Memory

open Memory

variable {K : ℕ → Prop} {x x' : Memory A} {t va pa size : ℕ}

/-- The number of pages of a range below `2 ^ 39` is not cut off. -/
theorem toInt32_pages (hspan : va + size ≤ 2 ^ 39) :
    toInt32 (size / pageSize) = (size / pageSize : ℕ) := by
  refine toInt32_of_lt ?_
  simp only [pageSize, pageOffset]
  omega

/-! ### `__arch_hw_mmap` -/

/-- The buddy allocator refuses the walk a page for a table, and the walk stops there. -/
def Memory.WalkRefused (x : Memory A) (prot t va pa : ℕ) (pages : ℤ) : Prop :=
  ∃ (pages' : ℤ) (y z : Memory A),
    vmWalkthrough prot 2 t x va pa pages = some (-enomem, pages', z) ∧
    y.bkpAllocZero 0 = (none, z)

theorem Memory.OutOfPages.refused {z : Memory A} (h : z.OutOfPages) :
    ∃ y : Memory A, y.bkpAllocZero 0 = (none, z) := by
  obtain ⟨s, hs⟩ := h
  refine ⟨{ z with buddy := s }, ?_⟩
  unfold bkpAllocZero
  dsimp only
  rw [hs]

/-- `__arch_hw_mmap` returns what its walk has returned. -/
theorem hwMmap_ret {prot : ℕ} {ret r pages : ℤ} {z : Memory A} (h0 : size ≠ 0)
    (hwalk : vmWalkthrough prot 2 t x va pa (toInt32 (size / pageSize)) = some (r, pages, z))
    (heq : x.hwMmap t va pa prot size = some (ret, x')) : ret = r := by
  unfold hwMmap at heq
  split_ifs at heq
  rw [hwalk] at heq
  dsimp only at heq
  by_cases hr : r = 0
  · rw [if_neg (not_not.2 hr)] at heq
    exact (congrArg Prod.fst (Option.some.inj heq)).symm.trans hr.symm
  · rw [if_pos hr] at heq
    split at heq
    · cases heq
    · exact (congrArg Prod.fst (Option.some.inj heq)).symm

/-- When `__arch_hw_mmap` returns `-ENOMEM` its walk has been refused a page. -/
theorem hwMmap_refused (h : x.IsPageTable K t) (hpa' : pa < 2 ^ 64) {prot : ℕ}
    (heq : x.hwMmap t va pa prot size = some (-enomem, x')) :
    x.WalkRefused prot t va pa (toInt32 (size / pageSize)) := by
  obtain ⟨ret, pages', z, m, hwalk, -, hr⟩ :=
    walk_spec K prot 2 le_rfl t x va pa (toInt32 (size / pageSize)) 0 hpa' h.inv
  have hsize : size ≠ 0 := by
    rintro rfl
    unfold hwMmap at heq
    rw [if_pos rfl] at heq
    split_ifs at heq
    exact absurd (congrArg Prod.fst (Option.some.inj heq)) (show (0 : ℤ) ≠ -enomem by decide)
  obtain rfl := hwMmap_ret hsize hwalk heq
  obtain ⟨-, ⟨hexist, -⟩ | ⟨-, -, hout⟩⟩ := hr.failed (by decide)
  · exact absurd hexist (by decide)
  · obtain ⟨y, hy⟩ := hout.refused
    exact ⟨pages', y, z, hwalk, hy⟩

/-- In a range below `2 ^ 39` where nothing is mapped `__arch_hw_mmap` installs the mapping, and
where something is mapped it says so, unless its walk is refused a page for a table. -/
theorem hw_mmap_installs (h : x.IsPageTable K t) (hva : va % pageSize = 0)
    (hpa : pa % pageSize = 0) (hpa' : pa < 2 ^ 64) (hsize : size % pageSize = 0)
    (hpos : 0 < size) (hspan : va + size ≤ 2 ^ 39) (prot : ℕ) :
    ∃ ret x', x.hwMmap t va pa prot size = some (ret, x') ∧
      (ret = -enomem ∧ x.WalkRefused prot t va pa (size / pageSize : ℕ) ∨
        ((∀ i < size / pageSize, ¬ PteValid (x.leafEntry t (position 2 (va + i * pageSize)))) →
          ret = 0 ∧ Installed x x' t va pa prot size) ∧
        ((∃ i < size / pageSize, PteValid (x.leafEntry t (position 2 (va + i * pageSize)))) →
          ret = -eexist)) := by
  have htable := tableSpan_eq
  have hint := toInt32_pages hspan
  have hvapos : position 2 va = va / 4096 := by
    show va / 4096 % 2 ^ 27 = _
    omega
  have hn : position 2 va + size / pageSize ≤ tableSpan := by
    rw [hvapos]
    simp only [pageSize, pageOffset] at *
    omega
  have hat : ∀ i < size / pageSize, position 2 (va + i * pageSize) = position 2 va + i := by
    intro i hi
    rw [position_add, Nat.mod_eq_of_lt (by omega)]
  obtain ⟨ret, x', heq, -, hcase⟩ := hwMmap_spec h.inv h.pinned hva hpa hpa' hsize
    (by rw [hint]; exact Int.natCast_nonneg _) prot
  rw [hint] at hcase
  refine ⟨ret, x', heq, ?_⟩
  rcases hcase with ⟨rfl, m, hw, hend, hbudget, -⟩ |
    ⟨hret, -, w, hw, hin, ⟨rfl, -⟩ | ⟨rfl, hvalid⟩⟩
  · -- the walk got through, so no entry on its way was valid
    have hpages : 0 < size / pageSize := by
      simp only [pageSize, pageOffset] at *
      omega
    have hm : m = size / pageSize := by
      have := hbudget (by omega)
      omega
    refine .inr ⟨fun _ => ⟨rfl, ?_⟩, ?_⟩
    · refine (hw.installed_iff hva (by omega) fun _ => ⟨hm.le, .inl hm⟩).2
        ⟨by omega, fun i hi hbeyond => ?_⟩
      simp only [pageSize, pageOffset] at *
      omega
    · rintro ⟨i, hi, hvalid⟩
      rw [hat i hi, ← validAt_iff] at hvalid
      exact absurd hvalid (hw.wrote _ (Nat.le_add_right _ _) (by omega)).1
  · -- no page for a table
    exact .inl ⟨rfl, hint ▸ hwMmap_refused h hpa' heq⟩
  · -- it stopped at a valid entry of the range
    refine .inr ⟨fun hno => ?_, fun _ => rfl⟩
    have hlt := hin.2 (by
      simp only [pageSize, pageOffset] at *
      omega)
    obtain ⟨i, rfl⟩ := Nat.exists_eq_add_of_le hin.1
    rw [validAt_iff, ← hat i (by omega)] at hvalid
    exact absurd hvalid (hno i (by omega))

/-- A mapping in an empty page table on a machine of 16 GiB. -/
theorem vmMachine_hwMmap (va pa size : ℕ) (hva : va % pageSize = 0) (hpa : pa % pageSize = 0)
    (hpa' : pa < 2 ^ 64) (hsize : size % pageSize = 0) (hneg : 0 ≤ toInt32 (size / pageSize)) :
    ∃ (s s' : TableRun vmMachinePages), (hwRuns vmMachinePages).Reachable s ∧
      s.mem.IsPageTable noPin s.root ∧ s'.root = s.root ∧ s'.mem.IsPageTable noPin s'.root ∧
      (∀ w < tableSpan, s.mem.leafEntry s.root w = 0) ∧
      s.mem.hwMmap s.root va pa 3 size = some (0, s'.mem) ∧ ∃ m,
      Walked noPin 3 s.mem s'.mem 2 s.root 0 (position 2 va) pa m ∧
      ((m : ℤ) = toInt32 (size / pageSize) ∨ position 2 va + m = tableSpan) := by
  obtain ⟨x₀, x, t, hx, hinv, hzero, hfree⟩ := vmMachine_table
  have hentry : ∀ w < tableSpan, x.leafEntry t w = 0 := by
    intro w hw
    unfold leafEntry
    cases h : x.leaf 2 t w with
    | none => rfl
    | some e => exact hzero w hw e h
  obtain ⟨ret, x', heq, hstep, ⟨rfl, m, hw, hend, -⟩ | ⟨-, -, w, hw, -, ⟨-, -, hout⟩ | ⟨-, hv⟩⟩⟩ :=
    hwMmap_spec hinv (fun _ => False.elim) hva hpa hpa' hsize hneg 3
  · exact ⟨⟨t, x⟩, ⟨t, x'⟩, .of_init ⟨x₀, hx⟩, ⟨hinv, fun _ => False.elim⟩, rfl,
      ⟨hstep.inv, fun _ => False.elim⟩, hentry, heq, m, hw, hend⟩
  · exact absurd hout (not_exhausts vmMachinePages_ample (by omega))
  · rw [validAt_iff, hentry w hw] at hv
    exact absurd hv not_pteValid_zero

/-- A page table of 16 GiB that is empty, and two pages around the end of a table. -/
theorem hw_mmap_installs_two_pages : ∃ (s : TableRun vmMachinePages) (x' : Memory vmMachinePages),
    s.mem.hwMmap s.root (2 ^ 21 - 4096) 0 3 8192 = some (0, x') ∧
      Installed s.mem x' s.root (2 ^ 21 - 4096) 0 3 8192 := by
  obtain ⟨s, s', -, htable, -, -, hzero, hmap, -⟩ := vmMachine_hwMmap (2 ^ 21 - 4096) 0 8192
    rfl rfl (by norm_num) rfl (by decide)
  obtain ⟨ret, x', heq, ⟨hret, -⟩ | ⟨hok, -⟩⟩ := hw_mmap_installs htable
    (show (2 ^ 21 - 4096) % pageSize = 0 from rfl) (show 0 % pageSize = 0 from rfl) (by norm_num)
    (show 8192 % pageSize = 0 from rfl) (by norm_num) (by norm_num) 3
  · rw [hmap] at heq
    cases heq
    cases hret
  · obtain ⟨rfl, hin⟩ := hok fun i _ => by
      rw [hzero _ (position_lt 2 _)]
      exact not_pteValid_zero
    exact ⟨s, x', heq, hin⟩

/-- When `__arch_hw_mmap` fails, every page has the same valid entry as before, or none. -/
theorem hw_mmap_rolls_back (h : x.IsPageTable K t) (hva : va % pageSize = 0)
    (hpa : pa % pageSize = 0) (hpa' : pa < 2 ^ 64) (hsize : size % pageSize = 0)
    (hspan : va + size ≤ 2 ^ 39) (prot : ℕ) :
    ∃ ret x', x.hwMmap t va pa prot size = some (ret, x') ∧ (ret < 0 →
      ∀ w < tableSpan, ∀ e, PteValid e → (x'.leafEntry t w = e ↔ x.leafEntry t w = e)) := by
  obtain ⟨ret, x', heq, -, hcase⟩ := hwMmap_spec h.inv h.pinned hva hpa hpa' hsize
    (by rw [toInt32_pages hspan]; exact Int.natCast_nonneg _) prot
  refine ⟨ret, x', heq, fun hneg w hw e he => ?_⟩
  rcases hcase with ⟨rfl, -⟩ | ⟨-, hsame, -⟩
  · exact absurd hneg (lt_irrefl 0)
  · -- the unmap behind the failed walk left the valid entries from before
    rw [leafEntry_eq_iff he, leafEntry_eq_iff he]
    exact hsame w hw e he

/-- Pages of one table have entries together. -/
theorem Memory.leaf_eq_none_iff {d u w : ℕ} (h : u / 512 = w / 512) :
    x.leaf d t u = none ↔ x.leaf d t w = none := by
  induction d generalizing t u w with
  | zero => exact iff_of_false (Option.some_ne_none _) (Option.some_ne_none _)
  | succ d ih =>
    have hpow : 512 ^ (d + 1) = 512 * 512 ^ d := pow_succ' 512 d
    have hdiv : u / 512 ^ (d + 1) = w / 512 ^ (d + 1) := by
      rw [hpow, ← Nat.div_div_eq_div_mul, ← Nat.div_div_eq_div_mul, h]
    cases hn : (sv39Format L).next (x.words t (w / 512 ^ (d + 1))) with
    | none => rw [leaf_hole (by rw [hdiv, hn]), leaf_hole hn]
    | some t' =>
      rw [leaf_child (by rw [hdiv, hn]), leaf_child hn]
      exact ih (by rw [hpow, Nat.mod_mul_right_div_self, Nat.mod_mul_right_div_self, h])

/-- The second of two pages is mapped: the walk enters the first one before it finds the second. -/
theorem walk_second_mapped (prot : ℕ) (h : x.IsPageTable noPin t) (hpa' : pa < 2 ^ 64)
    (hfirst : x.leafEntry t 0 = 0) (hsecond : x.ValidAt 2 t 1) : ∃ (pages : ℤ) (z : Memory A),
    vmWalkthrough prot 2 t x 0 pa 2 = some (-eexist, pages, z) ∧
      z.leafEntry t 0 = sv39Pa2PTE pa prot := by
  obtain ⟨ret, pages, z, k, hwalk, hk, hr⟩ :=
    walk_spec noPin prot 2 le_rfl t x 0 pa 2 0 hpa' h.inv
  have hlt : k < 2 := by
    by_contra hle
    exact (hk.wrote 1 (Nat.zero_le _) (by show 1 < 0 + k; omega)).1 hsecond
  have hret : ret ≠ 0 := fun h0 => by
    rcases (hr.done h0).1 with h | h
    · have := hr.left
      omega
    · have : 0 + k = 512 ^ 3 := h
      omega
  obtain ⟨-, hwhy⟩ := hr.failed hret
  -- both pages are in one table, which is there
  have hsome : z.leaf 2 t (0 + k) ≠ none := by
    intro hnone
    obtain ⟨e, he, -⟩ := hsecond
    have hold : x.leaf 2 t (0 + k) ≠ none := by
      rw [Ne, leaf_eq_none_iff (w := 1) (by omega), he]
      exact Option.some_ne_none e
    rcases hk.rest (0 + k) (by omega) (.inr le_rfl) with h | ⟨h, -⟩
    · exact hold (h ▸ hnone)
    · exact hold h
  obtain ⟨rfl, hfound⟩ : ret = -eexist ∧ z.ValidAt 2 t (0 + k) :=
    hwhy.resolve_right fun h => hsome h.2.1
  have hone : k = 1 := by
    by_contra hne
    obtain rfl : k = 0 := by omega
    -- it cannot have stopped at the first page, which is not mapped
    have hsame : z.leafEntry t 0 = x.leafEntry t 0 :=
      hk.leafEntry_rest (by decide) (.inr le_rfl)
    rw [validAt_iff, show z.leafEntry t (0 + 0) = _ from hsame, hfirst] at hfound
    exact not_pteValid_zero hfound
  subst hone
  exact ⟨pages, z, hwalk, hk.leafEntry_wrote Nat.zero_lt_one⟩

/-- The second page is mapped, and both are to be mapped: the walk enters the first page before it
finds the second one. -/
theorem hw_mmap_rolls_back_two_pages : ∃ (s : TableRun vmMachinePages) (pages : ℤ)
    (x' z : Memory vmMachinePages),
    vmWalkthrough 3 2 s.root s.mem 0 4096 2 = some (-eexist, pages, z) ∧
      s.mem.leafEntry s.root 0 = 0 ∧ z.leafEntry s.root 0 = sv39Pa2PTE 4096 3 ∧
      s.mem.hwMmap s.root 0 4096 3 8192 = some (-eexist, x') ∧
      ∀ w < tableSpan, ∀ e, PteValid e →
        (x'.leafEntry s.root w = e ↔ s.mem.leafEntry s.root w = e) := by
  obtain ⟨s₀, s, -, -, hroot, htable, hzero, -, m, hw, hm⟩ := vmMachine_hwMmap 4096 0 4096
    rfl rfl (by norm_num) rfl (by decide)
  rw [← hroot] at hw hzero
  have hpos : 0 < m := by
    rcases hm with h | h
    · have : (m : ℤ) = 1 := h
      omega
    · have : 1 + m = 512 ^ 3 := h
      omega
  have hvalid : s.mem.ValidAt 2 s.root 1 := by
    rw [validAt_iff, show s.mem.leafEntry s.root 1 = _ from hw.leafEntry_wrote hpos]
    decide
  have hfirst : s.mem.leafEntry s.root 0 = 0 :=
    (hw.leafEntry_rest (by decide) (.inl Nat.zero_lt_one)).trans (hzero 0 (by decide))
  obtain ⟨pages, z, hwalk, hentered⟩ := walk_second_mapped 3 htable
    (show 4096 < 2 ^ 64 by norm_num) hfirst hvalid
  obtain ⟨ret, x', heq, hback⟩ := hw_mmap_rolls_back htable
    (show 0 % pageSize = 0 from rfl) (show 4096 % pageSize = 0 from rfl) (by norm_num)
    (show 8192 % pageSize = 0 from rfl) (by norm_num) 3
  obtain rfl : ret = -eexist := hwMmap_ret (show 8192 ≠ 0 by norm_num)
    (show vmWalkthrough 3 2 s.root s.mem 0 4096 (toInt32 (8192 / pageSize : ℕ)) = _ from hwalk) heq
  exact ⟨s, pages, x', z, hwalk, hfirst, hentered, heq, hback (by decide)⟩

/-- When `__arch_hw_mmap` returns 0, the mapping is installed just when every page of it from
`2 ^ 39` on had the entry asked for already.  The walk ends with the root table, and what is
left of the mapping is not entered. -/
theorem hw_mmap_installed_iff (h : x.IsPageTable K t) (hva : va % pageSize = 0)
    (hva' : va < 2 ^ 64) (hpa : pa % pageSize = 0) (hpa' : pa < 2 ^ 64)
    (hsize : size % pageSize = 0) {prot : ℕ}
    (hret : x.hwMmap t va pa prot size = some (0, x')) :
    Installed x x' t va pa prot size ↔ size / pageSize ≤ tableSpan ∧
      ∀ i < size / pageSize, 2 ^ 39 ≤ va + i * pageSize →
        x.leafEntry t (position 2 (va + i * pageSize)) = sv39Pa2PTE (pa + i * pageSize) prot := by
  have htable := tableSpan_eq
  by_cases h0 : size = 0
  · -- nothing is asked for
    unfold hwMmap at hret
    rw [if_pos ⟨hva, hpa, hsize⟩, if_pos h0] at hret
    cases hret
    rw [h0, Nat.zero_div]
    exact ⟨fun _ => ⟨Nat.zero_le _, fun i hi => absurd hi (Nat.not_lt_zero i)⟩,
      fun _ => ⟨fun i hi => absurd hi (by rw [Nat.zero_div]; exact Nat.not_lt_zero i),
        fun _ _ _ => rfl⟩⟩
  · have hneg : 0 ≤ toInt32 (size / pageSize) := by
      by_contra hlt
      unfold hwMmap at hret
      rw [if_pos ⟨hva, hpa, hsize⟩, if_neg h0, if_neg hlt] at hret
      cases hret
    obtain ⟨ret, y, heq, -, hcase⟩ := hwMmap_spec h.inv h.pinned hva hpa hpa' hsize hneg prot
    rw [hret] at heq
    cases heq
    rcases hcase with ⟨-, m, hw, hend, hbudget, -⟩ | ⟨hne, -⟩
    · -- the count is right for up to a whole table of pages
      have hint : size / pageSize ≤ tableSpan → toInt32 (size / pageSize) = (size / pageSize : ℕ) :=
        fun hle => toInt32_of_lt (by omega)
      have hpages : 0 < size / pageSize := by
        simp only [pageSize, pageOffset] at *
        omega
      refine hw.installed_iff hva hva' fun hle => ?_
      have := hbudget (by rw [hint hle]; omega)
      rw [hint hle] at this hend
      omega
    · exact absurd rfl hne

/-- The last page of the address space is mapped. -/
theorem hw_mmap_installed_last : ∃ (s : TableRun vmMachinePages) (x' : Memory vmMachinePages),
    s.mem.hwMmap s.root (2 ^ 39 - 4096) 0 3 4096 = some (0, x') ∧
      Installed s.mem x' s.root (2 ^ 39 - 4096) 0 3 4096 := by
  obtain ⟨s, s', -, htable, -, -, -, hmap, -⟩ := vmMachine_hwMmap (2 ^ 39 - 4096) 0 4096
    rfl rfl (by norm_num) rfl (by decide)
  refine ⟨s, s'.mem, hmap, (hw_mmap_installed_iff htable rfl (by norm_num) rfl (by norm_num) rfl
    hmap).2 ⟨by decide, fun i hi hbeyond => ?_⟩⟩
  have : i < 1 := hi
  simp only [pageSize, pageOffset] at hbeyond
  omega

/-- Two pages from the last one on: success, but the second page is not entered. -/
theorem hw_mmap_not_installed : ∃ (s : TableRun vmMachinePages) (x' : Memory vmMachinePages),
    s.mem.IsPageTable noPin s.root ∧
      s.mem.hwMmap s.root (2 ^ 39 - 4096) 0 3 8192 = some (0, x') ∧
      ¬ Installed s.mem x' s.root (2 ^ 39 - 4096) 0 3 8192 := by
  obtain ⟨s, s', -, htable, -, -, hzero, hmap, m, hw, -⟩ := vmMachine_hwMmap (2 ^ 39 - 4096) 0 8192
    rfl rfl (by norm_num) rfl (by decide)
  refine ⟨s, s'.mem, htable, hmap, fun hin => ?_⟩
  have hentry := hin.entry 1 (by decide)
  rw [hw.leafEntry_rest (position_lt 2 _) (.inl (by decide)), hzero _ (position_lt 2 _)] at hentry
  exact absurd hentry (by decide)

/-! ### `__arch_hw_unmap_all` -/

namespace Memory

/-- The buddy allocator got the blocks of these pages back, one after the other. -/
def GivesBack (x x' : Memory A) (l : List ℕ) : Prop := l.foldlM A.free x.buddy = some x'.buddy

theorem GivesBack.trans {x'' : Memory A} {l l' : List ℕ} (h : x.GivesBack x' l)
    (h' : x'.GivesBack x'' l') : x.GivesBack x'' (l ++ l') := by
  unfold GivesBack at *
  rw [List.foldlM_append, h]
  exact h'

theorem bkFree_givesBack {p : ℕ} (h : x.bkFree p = some x') : ∃ l, x.GivesBack x' l := by
  unfold bkFree at h
  split_ifs at h
  · unfold bkpFree at h
    split_ifs at h
    split at h
    · cases h
    · rename_i b hb
      cases h
      refine ⟨[p], ?_⟩
      show (A.free x.buddy p).bind some = some b
      rw [hb]
      rfl
  · cases h
    exact ⟨[], rfl⟩

theorem freeLeaves_buddy (n : ℕ) (x : Memory A) : (freeLeaves t n x).buddy = x.buddy := by
  induction n generalizing x with
  | zero => rfl
  | succ n ih =>
    rw [freeLeaves, ih]
    split_ifs
    · rfl
    · rfl

theorem freeDir_givesBack {next : ℕ → Memory A → Option (Memory A)}
    (hnext : ∀ t x x', next t x = some x' → ∃ l, x.GivesBack x' l) (n : ℕ) (x : Memory A)
    (h : freeDir next t n x = some x') : ∃ l, x.GivesBack x' l := by
  induction n generalizing x with
  | zero =>
    cases h
    exact ⟨[], rfl⟩
  | succ n ih =>
    rw [freeDir] at h
    split at h
    · cases h
    · rename_i y hentry
      obtain ⟨l', hl'⟩ := ih _ h
      suffices hone : ∃ l, x.GivesBack y l by
        obtain ⟨l, hl⟩ := hone
        exact ⟨l ++ l', hl.trans hl'⟩
      unfold freeEntry at hentry
      split_ifs at hentry
      · split at hentry
        · cases hentry
        · split at hentry
          · cases hentry
          · rename_i z hz
            obtain ⟨l₁, h₁⟩ := hnext _ _ _ hz
            obtain ⟨l₂, h₂⟩ := bkFree_givesBack (x := z.setWord t (pteNums - (n + 1)) 0) hentry
            exact ⟨l₁ ++ l₂, h₁.trans h₂⟩
      · cases hentry
        exact ⟨[], rfl⟩

theorem riscvFreePgtable_givesBack (d : ℕ) : ∀ t (x x' : Memory A),
    riscvFreePgtable d t x = some x' → ∃ l, x.GivesBack x' l := by
  induction d with
  | zero =>
    intro t x x' h
    have h1 := freeLeaves_buddy (t := t) pteNums x
    rw [Option.some.inj h] at h1
    exact ⟨[], congrArg some h1.symm⟩
  | succ d ih => exact fun t x x' h => freeDir_givesBack ih _ _ h

/-- No block is given back twice, and the blocks that are given back are those that are gone. -/
theorem GivesBack.once {l : List ℕ} (h : x.GivesBack x' l) : l.Nodup ∧
    (∀ p ∈ l, x.blocks p ≠ none ∧ x'.blocks p = none) ∧ ∀ p ∉ l, x'.blocks p = x.blocks p := by
  obtain ⟨b, pages, words⟩ := x
  unfold GivesBack at h
  unfold blocks
  dsimp only at *
  induction l generalizing b with
  | nil =>
    cases h
    exact ⟨List.nodup_nil, fun p hp => (nomatch hp), fun _ _ => rfl⟩
  | cons p l ih =>
    rw [List.foldlM_cons] at h
    cases hk : A.blocks b p with
    | none =>
      rw [A.free_none b p hk] at h
      cases h
    | some k =>
      obtain ⟨b', hb', -, hblocks⟩ := PageAllocator.free_some (A := A) hk
      rw [hb'] at h
      obtain ⟨h1, h2, h3⟩ := ih b' h
      have hself : A.blocks b' p = none := by rw [hblocks, Function.update_self]
      have hp : p ∉ l := fun hp => (h2 p hp).1 hself
      refine ⟨List.nodup_cons.2 ⟨hp, h1⟩, fun q hq => ?_, fun q hq => ?_⟩
      · rcases List.mem_cons.1 hq with rfl | hq
        · rw [hk, h3 q hp, hself]
          exact ⟨Option.some_ne_none k, rfl⟩
        · obtain ⟨h4, h5⟩ := h2 q hq
          rw [hblocks, Function.update_of_ne (ne_of_mem_of_not_mem hq hp)] at h4
          exact ⟨h4, h5⟩
      · rw [List.mem_cons, not_or] at hq
        rw [h3 q hq.2, hblocks, Function.update_of_ne hq.1]

end Memory

/-- `__arch_hw_unmap_all` gives each table below the root back once, gives back nothing else,
and leaves a root of zeros.  No `ASSERT` fails. -/
theorem hw_unmap_all_frees (s : TableRun A) (h : (hwRuns A).Reachable s) :
    ∃ x', s.mem.hwUnmapAll s.root = some x' ∧
      (∃ l : List ℕ, s.mem.GivesBack x' l ∧ l.Nodup ∧
        ∀ p, p ∈ l ↔ p ∈ s.mem.tables 2 s.root ∧ p ≠ s.root) ∧
      (∀ p, p ∈ x'.freePages ↔
        p ∈ s.mem.freePages ∨ p ∈ s.mem.tables 2 s.root ∧ p ≠ s.root) ∧
      ∀ i < pteNums, x'.words s.root i = 0 := by
  have hinv := TableRun.inv_reachable h
  obtain ⟨x', hx', hstep, hzero, -⟩ := freeDir_spec (free_spec 1) 512 s.mem le_rfl hinv.1
  have hzero' : ∀ i < 512, x'.words s.root i = 0 := fun i hi => hzero i (by omega) hi
  have htables : x'.tables 2 s.root = {s.root} := tables_of_empty (F := sv39Format L) hzero'
  have hfree : ∀ p, p ∈ x'.freePages ↔
      p ∈ s.mem.freePages ∨ p ∈ s.mem.tables 2 s.root ∧ p ≠ s.root := by
    intro p
    have hc := hstep.conserve p
    have h1 := hstep.inv.apart p
    have h2 := hinv.1.apart p
    rw [htables, Finset.mem_singleton] at hc h1
    have hroot : p = s.root → p ∈ s.mem.tables 2 s.root := by
      rintro rfl
      exact root_mem_tables _ _ _
    tauto
  obtain ⟨l, hl⟩ := riscvFreePgtable_givesBack 2 s.root s.mem x' hx'
  obtain ⟨hnodup, hin, hout⟩ := hl.once
  refine ⟨x', hx', ⟨l, hl, hnodup, fun p => ⟨fun hp => ?_, fun ⟨hp, hne⟩ => ?_⟩⟩, hfree, hzero'⟩
  · -- a block that is gone is one of a table
    obtain ⟨h1, h2⟩ := hin p hp
    have hnfree : p ∉ s.mem.freePages := fun hf => h1 (PageAllocator.blocks_of_free hf)
    have htab : p ∈ s.mem.tables 2 s.root := by
      by_contra hnot
      exact h1 ((hstep.frame p hnfree hnot).2.1.symm.trans h2)
    refine ⟨htab, ?_⟩
    rintro rfl
    exact h1 (hstep.root.1.symm.trans h2)
  · by_contra hnot
    have h1 : x'.blocks p = none := PageAllocator.blocks_of_free ((hfree p).2 (.inr ⟨hp, hne⟩))
    rw [hout p hnot, hinv.wellFormed.block p hp] at h1
    cases h1

/-- Two pages around the end of a gigabyte were mapped. -/
theorem hw_unmap_all_frees_two_pages : ∃ (s : TableRun vmMachinePages)
    (x' : Memory vmMachinePages), (hwRuns vmMachinePages).Reachable s ∧
      s.mem.hwUnmapAll s.root = some x' ∧ ∀ i < pteNums, x'.words s.root i = 0 := by
  obtain ⟨s, s', hs, -, hroot, -, -, hmap, -⟩ := vmMachine_hwMmap (2 ^ 30 - 4096) 0 8192
    rfl rfl (by norm_num) rfl (by decide)
  have hs' : (hwRuns vmMachinePages).Reachable s' :=
    hs.step (a := .mmap (2 ^ 30 - 4096) 0 3 8192)
      ⟨⟨rfl, rfl, by norm_num, rfl, by norm_num⟩, hroot, 0, hmap⟩
  obtain ⟨x', hx', -, -, hzero⟩ := hw_unmap_all_frees s' hs'
  exact ⟨s', x', hs', hx', hzero⟩

end AcoOs
