/-
The walk of the boot code and the walk of the kernel agree.

`vm_mmap` of the boot code descends once for each page, `__arch_hw_mmap` goes through a table from
the first page to the last.  `pageOf` is what the hardware makes of an entry, and two page tables
have the same translation when it makes the same of both at every address.

* **`batch_walk_agrees`** — on page tables with the same translation, in ranges below `2 ^ 39` and
  as long as neither runs out of pages, one of the two returns 0, or `-EEXIST`, exactly when the
  other does, and after a success the translation is the same again.
-/
import AcoOs.VmCalls
import AcoOs.EarlyWalk

namespace AcoOs

/-! ### Translations -/

/-- The frame and the permissions that the hardware finds in the entry on the last level: none where
there is no valid entry, and none in an entry without a permission to read, write or execute. -/
def pageOf : Option ℕ → Option (ℕ × ℕ)
  | none => none
  | some pte => if PteValid pte ∧ ¬ PteNextpgt pte then some (pteFrame pte) else none

/-- The entries on the last level do not point to tables. -/
def OnlyPages (leaf : ℕ → Option ℕ) : Prop :=
  ∀ w < tableSpan, ∀ pte, leaf w = some pte → ¬ PteNextpgt pte

/-- Every address below `2 ^ 39` has the same translation. -/
def SameTranslation (leaf leaf' : ℕ → Option ℕ) : Prop :=
  ∀ va < 2 ^ 39, pageOf (leaf (position 2 va)) = pageOf (leaf' (position 2 va))

variable {leaf leaf' : ℕ → Option ℕ} {w : ℕ}

/-- The pages below `2 ^ 39` are those the three indices tell apart. -/
theorem SameTranslation.at (h : SameTranslation leaf leaf') (hw : w < tableSpan) :
    pageOf (leaf w) = pageOf (leaf' w) := by
  have hspan := tableSpan_eq
  have hpos : position 2 (w * pageSize) = w := by
    show w * pageSize / pageSize % tableSpan = w
    rw [Nat.mul_div_cancel w (by decide), Nat.mod_eq_of_lt hw]
  have hva := h (w * pageSize) (by simp only [pageSize, pageOffset]; omega)
  rwa [hpos] at hva

/-- Where only pages are entered, the hardware finds one exactly at the valid entries. -/
theorem OnlyPages.valid_iff (h : OnlyPages leaf) (hw : w < tableSpan) :
    (∃ pte, leaf w = some pte ∧ PteValid pte) ↔ pageOf (leaf w) ≠ none := by
  unfold pageOf
  cases he : leaf w with
  | none =>
    refine iff_of_false ?_ fun hne => hne rfl
    rintro ⟨pte, hpte, -⟩
    cases hpte
  | some pte =>
    dsimp only
    by_cases hv : PteValid pte
    · rw [if_pos ⟨hv, h w hw pte he⟩]
      exact iff_of_true ⟨pte, rfl, hv⟩ (Option.some_ne_none _)
    · rw [if_neg fun hc => hv hc.1]
      refine iff_of_false ?_ fun hne => hne rfl
      rintro ⟨pte', hpte, hv'⟩
      cases hpte
      exact hv hv'

theorem pageOf_zero : pageOf (some 0) = none := by
  unfold pageOf
  exact if_neg fun h => not_pteValid_zero h.1

/-- The walks add empty tables, which translate nothing. -/
theorem pageOf_rest {e e' : Option ℕ} (h : e' = e ∨ e = none ∧ e' = some 0) :
    pageOf e' = pageOf e := by
  rcases h with rfl | ⟨rfl, rfl⟩
  · rfl
  · exact pageOf_zero

/-! ### The two walks -/

open Memory

variable {L : VmLayout} {A : PageAllocator L.toLayout} {K : ℕ → Prop} {x x' : Memory A}
  {y y' : EarlyMemory} {t u va pa size flags : ℕ}

/-- A page of the range has a valid entry already. -/
def Occupied (leaf : ℕ → Option ℕ) (va size : ℕ) : Prop :=
  ∃ i < size / pageSize, ∃ pte, leaf (position 2 va + i) = some pte ∧ PteValid pte

/-- The range is mapped to `pa`, and nothing else is translated in another way than before. -/
structure RangeEntered (leaf leaf' : ℕ → Option ℕ) (va pa size flags : ℕ) : Prop where
  entry : ∀ i < size / pageSize,
    leaf' (position 2 va + i) = some (sv39Pa2PTE (pa + i * pageSize) flags)
  rest : ∀ w < tableSpan, w < position 2 va ∨ position 2 va + size / pageSize ≤ w →
    pageOf (leaf' w) = pageOf (leaf w)

theorem range_le (hspan : va + size ≤ 2 ^ 39) (hpos : 0 < size) :
    position 2 va + size / pageSize ≤ tableSpan := by
  have htable := tableSpan_eq
  have hva : position 2 va = va / 4096 % 2 ^ 27 := rfl
  rw [hva]
  simp only [pageSize, pageOffset]
  omega

/-- `__arch_hw_mmap` finds the range occupied, or enters it. -/
theorem hwMmap_outcome (h : x.IsPageTable K t) (hva : va % pageSize = 0)
    (hpa : pa % pageSize = 0) (hpa' : pa < 2 ^ 64) (hsize : size % pageSize = 0)
    (hspan : va + size ≤ 2 ^ 39) (hpos : 0 < size)
    (hroom : ∀ x', x.hwMmap t va pa flags size ≠ some (-enomem, x')) :
    ∃ ret x', x.hwMmap t va pa flags size = some (ret, x') ∧
      (ret = 0 ∧ ¬ Occupied (x.leaf 2 t) va size ∧
          RangeEntered (x.leaf 2 t) (x'.leaf 2 t) va pa size flags ∨
        ret = -eexist ∧ Occupied (x.leaf 2 t) va size) := by
  have hrange := range_le hspan hpos
  have hn : 0 < size / pageSize := Nat.div_pos (Nat.le_of_dvd hpos (Nat.dvd_of_mod_eq_zero hsize))
    (by decide)
  obtain ⟨ret, x', heq, -, hcase⟩ := hwMmap_spec h.inv h.pinned hva hpa hpa' hsize
    (by rw [toInt32_pages hspan]; exact Int.natCast_nonneg _) flags
  rw [toInt32_pages hspan] at hcase
  refine ⟨ret, x', heq, ?_⟩
  rcases hcase with ⟨rfl, m, hw, hend, hbudget, -⟩ |
    ⟨-, -, w, hw, ⟨hlo, hhi⟩, ⟨rfl, -⟩ | ⟨rfl, pte, hleaf, hv⟩⟩
  · -- the walk has entered all pages of the range
    obtain rfl : m = size / pageSize := by
      have := hbudget (by omega)
      omega
    refine .inl ⟨rfl, ?_, fun i hi => ?_, fun w hw' hout => ?_⟩
    · rintro ⟨i, hi, hvalid⟩
      exact (hw.wrote (position 2 va + i) (Nat.le_add_right _ _) (by omega)).1 hvalid
    · have hwrote := (hw.wrote (position 2 va + i) (Nat.le_add_right _ _) (by omega)).2
      rw [Nat.add_sub_cancel_left] at hwrote
      rw [← sv39Pa2PTE_advance]
      exact hwrote
    · exact pageOf_rest (hw.rest w hw' hout)
  · exact absurd heq (hroom x')
  · refine .inr ⟨rfl, w - position 2 va, ?_, pte, ?_, hv⟩
    · have := hhi (by omega)
      omega
    · rw [Nat.add_sub_cancel' hlo]
      exact hleaf

/-- `vm_mmap` of the boot code finds the range occupied, or enters it. -/
theorem vmMmap_outcome (hy : y.Ok) (hu : y.IsTable 2 u) (hva : va % pageSize = 0)
    (hpa : pa % pageSize = 0) (hsize : size % pageSize = 0) (hspan : va + size ≤ 2 ^ 39)
    (hpos : 0 < size) (hroom : (y.vmMmap u va pa size flags).2.2.refused = false) :
    ∃ ret y', y.vmMmap u va pa size flags = (ret, u, y') ∧
      (ret = 0 ∧ ¬ Occupied (y.leaf 2 u) va size ∧
          RangeEntered (y.leaf 2 u) (y'.leaf 2 u) va pa size flags ∨
        ret = -eexist ∧ Occupied (y.leaf 2 u) va size) := by
  obtain ⟨ret, y', heq, -, hcase⟩ :=
    EarlyMemory.vmMmap_spec flags hy hu hva hpa hsize (range_le hspan hpos)
  rw [heq] at hroom
  refine ⟨ret, y', heq, ?_⟩
  rcases hcase hroom with ⟨rfl, hm⟩ | ⟨rfl, hocc⟩
  · refine .inl ⟨rfl, ?_, hm.entry, fun w hw hout => pageOf_rest (hm.rest w hw hout)⟩
    rintro ⟨i, hi, hvalid⟩
    exact hm.empty i hi hvalid
  · exact .inr ⟨rfl, hocc⟩

/-- Page tables with the same translation are occupied in the same ranges. -/
theorem SameTranslation.occupied_iff (h : SameTranslation leaf leaf') (hl : OnlyPages leaf)
    (hl' : OnlyPages leaf') (hrange : position 2 va + size / pageSize ≤ tableSpan) :
    Occupied leaf va size ↔ Occupied leaf' va size := by
  refine exists_congr fun i => and_congr_right fun hi => ?_
  have hw : position 2 va + i < tableSpan := by omega
  rw [hl.valid_iff hw, hl'.valid_iff hw, h.at hw]

/-- After both have entered the range the translation is the same again. -/
theorem SameTranslation.entered {leaf₁ leaf₁' : ℕ → Option ℕ} (h : SameTranslation leaf leaf')
    (he : RangeEntered leaf leaf₁ va pa size flags)
    (he' : RangeEntered leaf' leaf₁' va pa size flags) :
    SameTranslation leaf₁ leaf₁' := by
  intro a _
  have hw : position 2 a < tableSpan := position_lt 2 a
  by_cases hin : position 2 va ≤ position 2 a ∧ position 2 a < position 2 va + size / pageSize
  · obtain ⟨i, hi⟩ := Nat.exists_eq_add_of_le hin.1
    rw [hi, he.entry i (by omega), he'.entry i (by omega)]
  · rw [he.rest _ hw (by omega), he'.rest _ hw (by omega), h.at hw]

/-- The two functions return 0 together, with the same translation behind, and `-EEXIST`
together. -/
structure Agrees (t : ℕ) (r : Option (ℤ × Memory A)) (r' : ℤ × ℕ × EarlyMemory) : Prop where
  zero_iff : (∃ x', r = some (0, x')) ↔ r'.1 = 0
  same : ∀ x', r = some (0, x') → SameTranslation (x'.leaf 2 t) (r'.2.2.leaf 2 r'.2.1)
  eexist_iff : (∃ x', r = some (-eexist, x')) ↔ r'.1 = -eexist

theorem ret_iff {ret e : ℤ} : (∃ v, some (ret, x') = some (e, v)) ↔ ret = e := by
  constructor
  · rintro ⟨v, h⟩
    exact congrArg Prod.fst (Option.some.inj h)
  · rintro rfl
    exact ⟨x', rfl⟩

theorem Agrees.of_some {ret ret' : ℤ} (hzero : ret = 0 ↔ ret' = 0)
    (heexist : ret = -eexist ↔ ret' = -eexist)
    (hs : ret = 0 → SameTranslation (x'.leaf 2 t) (y'.leaf 2 u)) :
    Agrees t (some (ret, x')) (ret', u, y') := by
  refine ⟨ret_iff.trans hzero, fun v h => ?_, ret_iff.trans heexist⟩
  have hpair := Option.some.inj h
  rw [← show x' = v from congrArg Prod.snd hpair]
  exact hs (congrArg Prod.fst hpair)

/-- The walk of the boot code and that of the kernel have the same results on page tables with the
same translation, and lead to page tables with the same translation. -/
theorem batch_walk_agrees (hx : x.IsPageTable K t) (hy : y.Ok) (hu : y.IsTable 2 u)
    (hpages : OnlyPages (x.leaf 2 t)) (hpages' : OnlyPages (y.leaf 2 u))
    (hsame : SameTranslation (x.leaf 2 t) (y.leaf 2 u)) (hva : va % pageSize = 0)
    (hpa : pa % pageSize = 0) (hpa' : pa < 2 ^ 64) (hspan : va + size ≤ 2 ^ 39)
    (hroom : ∀ x', x.hwMmap t va pa flags size ≠ some (-enomem, x'))
    (hroom' : (y.vmMmap u va pa size flags).2.2.refused = false) :
    Agrees t (x.hwMmap t va pa flags size) (y.vmMmap u va pa size flags) := by
  by_cases hsize : size % pageSize = 0
  swap
  · -- one stops in an `ASSERT` and the other returns `-EINVAL`
    have hw : x.hwMmap t va pa flags size = none := if_neg fun h => hsize h.2.2
    have hm : y.vmMmap u va pa size flags = (-einval, u, y) := by
      unfold EarlyMemory.vmMmap
      rw [if_neg (by rw [hva, hpa]; exact fun h => h rfl), if_pos hsize]
    rw [hw, hm]
    have hne : -einval ≠ 0 ∧ -einval ≠ -eexist := by decide
    refine ⟨iff_of_false ?_ hne.1, fun x' h => (nomatch h), iff_of_false ?_ hne.2⟩
    · rintro ⟨x', h⟩
      cases h
    · rintro ⟨x', h⟩
      cases h
  rcases Nat.eq_zero_or_pos size with rfl | hpos
  · -- nothing is asked for
    have hu0 : u ≠ 0 := (hu.page u (y.root_mem_tables 2 u)).1.1
    have hw : x.hwMmap t va pa flags 0 = some (0, x) := by
      unfold hwMmap
      rw [if_pos ⟨hva, hpa, hsize⟩, if_pos rfl]
    have hm : y.vmMmap u va pa 0 flags = (0, u, y) := by
      unfold EarlyMemory.vmMmap
      rw [if_neg (by rw [hva, hpa]; exact fun h => h rfl), if_neg (by decide), if_neg hu0]
      dsimp only
      rw [if_neg hu0]
      rfl
    rw [hw, hm]
    exact .of_some Iff.rfl Iff.rfl fun _ => hsame
  obtain ⟨ret, x', hw, hcase⟩ := hwMmap_outcome hx hva hpa hpa' hsize hspan hpos hroom
  obtain ⟨ret', y', hm, hcase'⟩ := vmMmap_outcome hy hu hva hpa hsize hspan hpos hroom'
  have hocc := hsame.occupied_iff hpages hpages' (range_le hspan hpos)
  rw [hw, hm]
  rcases hcase with ⟨rfl, hfree, hin⟩ | ⟨rfl, hfull⟩
  · rcases hcase' with ⟨rfl, -, hin'⟩ | ⟨rfl, hfull'⟩
    · exact .of_some Iff.rfl Iff.rfl fun _ => hsame.entered hin hin'
    · exact absurd (hocc.2 hfull') hfree
  · rcases hcase' with ⟨rfl, hfree', -⟩ | ⟨rfl, -⟩
    · exact absurd (hocc.1 hfull) hfree'
    · exact .of_some Iff.rfl Iff.rfl fun h => absurd h (by decide)

/-- An empty table where all free pages are zero. -/
theorem EarlyMemory.of_empty {y : EarlyMemory} (hwords : ∀ p j, y.words p j = 0)
    (hal : y.paStFree % pageSize = 0) (hpos : 0 < y.paStFree)
    (hend : y.paStFree + y.sizeFree ≤ 2 ^ 56) (hu : u ≠ 0 ∧ u % pageSize = 0)
    (hlt : u < y.paStFree) : y.Ok ∧ y.IsTable 2 u ∧ ∀ w, y.leaf 2 u w = none := by
  have hroot : ∀ i < 512, y.words u i = 0 := fun i _ => hwords u i
  refine ⟨⟨hal, hpos, hend, fun p _ j _ => hwords p j⟩,
    ⟨Radix.isTree_of_empty hroot, fun p hp => ?_⟩, fun w => ?_⟩
  · rw [EarlyMemory.tables, Radix.tables_of_empty hroot, Finset.mem_singleton] at hp
    subst hp
    exact ⟨hu, fun hf => absurd hf.2.1 (by omega)⟩
  · refine EarlyMemory.leaf_hole ?_
    rw [hwords]
    exact earlyFormat.next_empty

/-- Two empty page tables, and two pages around the end of a table. -/
theorem batch_walk_agrees_two_pages :
    ∃ (s : TableRun vmMachinePages) (y : EarlyMemory),
      SameTranslation (s.mem.leaf 2 s.root) (y.leaf 2 4096) ∧
        (y.vmMmap 4096 (2 ^ 21 - 4096) 0 8192 3).1 = 0 ∧
        Agrees s.root (s.mem.hwMmap s.root (2 ^ 21 - 4096) 0 3 8192)
          (y.vmMmap 4096 (2 ^ 21 - 4096) 0 8192 3) := by
  obtain ⟨s, s', -, htable, -, -, hzero, hmap, -⟩ := vmMachine_hwMmap (2 ^ 21 - 4096) 0 8192
    rfl rfl (by norm_num) rfl (by decide)
  set y : EarlyMemory := ⟨fun _ _ => 0, 8192, 2 ^ 20, 0, false⟩ with hy
  have hruns : (y.vmMmap 4096 (2 ^ 21 - 4096) 0 8192 3).1 = 0 ∧
      (y.vmMmap 4096 (2 ^ 21 - 4096) 0 8192 3).2.2.refused = false := by
    rw [hy]
    decide
  obtain ⟨hok, hu, hnone⟩ := EarlyMemory.of_empty (y := y) (u := 4096) (fun _ _ => rfl)
    (show 8192 % pageSize = 0 from rfl) (show 0 < 8192 by norm_num)
    (show 8192 + 2 ^ 20 ≤ 2 ^ 56 by norm_num) (by decide) (show 4096 < 8192 by norm_num)
  have hempty : ∀ w < tableSpan, ∀ e, s.mem.leaf 2 s.root w = some e → e = 0 := by
    intro w hw e he
    have hentry := hzero w hw
    rwa [leafEntry, he] at hentry
  have hpage : ∀ w < tableSpan, pageOf (s.mem.leaf 2 s.root w) = none := by
    intro w hw
    cases he : s.mem.leaf 2 s.root w with
    | none => rfl
    | some e =>
      rw [hempty w hw e he]
      exact pageOf_zero
  have hsame : SameTranslation (s.mem.leaf 2 s.root) (y.leaf 2 4096) := by
    intro va _
    rw [hpage _ (position_lt 2 va), hnone]
    rfl
  refine ⟨s, y, hsame, hruns.1, batch_walk_agrees htable hok hu ?_ ?_ hsame
    (show (2 ^ 21 - 4096) % pageSize = 0 from rfl) (show 0 % pageSize = 0 from rfl) (by norm_num)
    (by norm_num) (fun x' hx' => ?_) hruns.2⟩
  · intro w hw e he hn
    rw [hempty w hw e he] at hn
    exact not_pteValid_zero hn.1
  · intro w _ e he
    rw [hnone] at he
    cases he
  · rw [hmap] at hx'
    have hret : (0 : ℤ) = -enomem := congrArg Prod.fst (Option.some.inj hx')
    exact absurd hret (by decide)

end AcoOs
