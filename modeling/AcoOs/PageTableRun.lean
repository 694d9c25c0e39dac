/-
`__arch_hw_mmap` and `__arch_hw_unmap`, and runs of them on one page table.

`hwMmap_spec` is for every 64-bit size, although the number of pages becomes an `int`: a
mapping is entered up to the end of the table, or it fails and what was entered is taken
out again.  `page_table` is the invariant over runs: in ranges below `2 ^ 39` no `ASSERT`
fails and the tables stay a tree of blocks.
-/
import AcoOs.PageTableUnmap
import AcoOs.Machine

namespace AcoOs

open Radix

variable {L : VmLayout} {A : PageAllocator L.toLayout}

/-- The pages of a page table with three levels: all of the 39-bit address space. -/
def tableSpan : ℕ := 512 ^ 3

namespace Memory

variable {K : ℕ → Prop} {x x' : Memory A} {t va pa prot size : ℕ}

/-- Tables for the page table can use up the free pages. -/
def Exhausts (K : ℕ → Prop) (x : Memory A) (t : ℕ) : Prop :=
  ∃ y : Memory A, TableStep K x y 2 t 0 ∧ y.OutOfPages

/-- Both memories have the same valid entries. -/
def SameTrans (x x' : Memory A) (t : ℕ) : Prop :=
  ∀ w < tableSpan, ∀ e, PteValid e → (x'.leaf 2 t w = some e ↔ x.leaf 2 t w = some e)

theorem SameTrans.validAt (h : SameTrans x x' t) {w : ℕ} (hw : w < tableSpan) :
    x'.ValidAt 2 t w ↔ x.ValidAt 2 t w := by
  constructor
  · rintro ⟨e, he, hv⟩
    exact ⟨e, (h w hw e hv).1 he, hv⟩
  · rintro ⟨e, he, hv⟩
    exact ⟨e, (h w hw e hv).2 he, hv⟩

theorem Gone.ne_valid {e : ℕ} (h : Gone (x.leaf 2 t va)) (hv : PteValid e) :
    x.leaf 2 t va ≠ some e :=
  fun he => h.not_valid ⟨e, he, hv⟩

/-! ### `__arch_hw_unmap` -/

/-- What `__arch_hw_unmap` does when it returns. -/
theorem hwUnmap_some (hinv : TableInv K x 2 t 0)
    (hK : ∀ w, InRange (position 2 va) (toInt32 (size / pageSize)) w → ¬ K w)
    (h : x.hwUnmap t va size = some x') :
    TableStep K x x' 2 t 0 ∧ Erased x x' 2 t (position 2 va) (toInt32 (size / pageSize)) ∧
    (0 < size → (∀ w < tableSpan, InRange (position 2 va) (toInt32 (size / pageSize)) w →
        x.leaf 2 t w ≠ none) →
      ∀ w < tableSpan, InRange (position 2 va) (toInt32 (size / pageSize)) w →
        Gone (x'.leaf 2 t w)) := by
  unfold hwUnmap at h
  by_cases hal : size % pageSize = 0 ∧ va % pageSize = 0
  · rw [if_pos hal] at h
    by_cases h0 : size = 0
    · rw [if_pos h0] at h
      cases h
      exact ⟨.refl hinv, .refl _ _ _ _ _, fun hpos => absurd h0 hpos.ne'⟩
    · rw [if_neg h0] at h
      by_cases hneg : 0 ≤ toInt32 (size / pageSize)
      · rw [if_pos hneg] at h
        obtain ⟨pages', y, heq, hun, -⟩ := unmap_spec K 2 le_rfl t x va
          (toInt32 (size / pageSize)) 0 hinv (by simpa using hK)
        rw [heq] at h
        dsimp only at h
        split_ifs at h with hdone
        cases h
        refine ⟨hun.step, hun.erased, fun _ hno w hw hr => ?_⟩
        have hpos : 0 < toInt32 (size / pageSize) := by
          by_contra hle
          -- with a count of 0 the walk ends at a hole only
          rcases hun.spent (by omega) with ⟨-, u, hu1, hu2, hu3⟩ | hspent
          · exact hno u hu2 ⟨hu1, fun hp => absurd hp hle⟩ hu3
          · have hlt : position 2 va < 512 ^ (2 + 1) := position_lt 2 va
            omega
        exact (hun.exact hpos fun u h1 h2 h3 => hno u h2 ⟨h1, fun _ => h3⟩).2 w hr.1 hw
          (hr.2 hpos)
      · rw [if_neg hneg] at h
        cases h
  · rw [if_neg hal] at h
    cases h

/-- Inside the address space no `ASSERT` fails, and where no table is missing exactly the
range is cleared. -/
theorem hwUnmap_spec (hinv : TableInv K x 2 t 0) {n : ℕ} (hva : va % pageSize = 0)
    (hn : position 2 va + n ≤ tableSpan)
    (hK : ∀ w, position 2 va ≤ w → w < position 2 va + n → ¬ K w) :
    ∃ x', x.hwUnmap t va (n * pageSize) = some x' ∧ TableStep K x x' 2 t 0 ∧
    (∀ w < tableSpan, x'.leaf 2 t w = x.leaf 2 t w ∨ Gone (x'.leaf 2 t w) ∧
      (Gone (x.leaf 2 t w) ∨ position 2 va ≤ w ∧ w < position 2 va + n)) ∧
    ((∀ w, position 2 va ≤ w → w < position 2 va + n → x.leaf 2 t w ≠ none) →
      ∀ w, position 2 va ≤ w → w < position 2 va + n → Gone (x'.leaf 2 t w)) := by
  have hspan : tableSpan = 2 ^ 27 := by norm_num [tableSpan]
  have hdiv : n * pageSize / pageSize = n := Nat.mul_div_cancel _ (by decide)
  have hint : toInt32 n = n := toInt32_of_lt (by omega)
  rcases Nat.eq_zero_or_pos n with rfl | hpos
  · refine ⟨x, ?_, .refl hinv, fun _ _ => .inl rfl, fun _ w h1 h2 => by omega⟩
    unfold hwUnmap
    rw [if_pos ⟨Nat.mul_mod_left _ _, hva⟩, if_pos (Nat.zero_mul _)]
  · obtain ⟨pages', y, heq, hun, -⟩ := unmap_spec K 2 le_rfl t x va n 0 hinv (by
      intro w hw
      rw [Nat.zero_add]
      exact hK w hw.1 (by have := hw.2 (by omega); omega))
    have hleft := hun.left (by omega)
    change position 2 va + n ≤ 512 ^ (2 + 1) at hn
    have hdone : pages' = 0 := by omega
    subst hdone
    refine ⟨y, ?_, hun.step, fun w hw => ?_, fun hno w h1 h2 => ?_⟩
    · have hsize : n * pageSize ≠ 0 := by
        simp only [pageSize, pageOffset]
        omega
      unfold hwUnmap
      rw [if_pos ⟨Nat.mul_mod_left _ _, hva⟩, if_neg hsize, hdiv, hint, if_pos (by omega), heq]
      exact if_pos rfl
    · rcases hun.erased w hw with h | ⟨hg, h⟩
      · exact .inl h
      · refine .inr ⟨hg, h.imp_right fun hr => ⟨hr.1, ?_⟩⟩
        have := hr.2 (by omega)
        omega
    · exact (hun.exact (by omega) fun w h1 _ h3 => hno w h1 (by omega)).2 w h1 (by omega)
        (by omega)

/-! ### `__arch_hw_mmap` -/

/-- A walk, undone by an unmap of the pages it entered, changes no valid entry. -/
theorem sameTrans_of_undone {K' : ℕ → Prop} {x₁ x₂ : Memory A} {v pa m : ℕ}
    (hw : Walked K' prot x x₁ 2 t 0 v pa m)
    (herased : ∀ w < tableSpan, x₂.leaf 2 t w = x₁.leaf 2 t w ∨ Gone (x₂.leaf 2 t w) ∧
      (Gone (x₁.leaf 2 t w) ∨ v ≤ w ∧ w < v + m))
    (hgone : ∀ w, v ≤ w → w < v + m → Gone (x₂.leaf 2 t w)) : SameTrans x x₂ t := by
  intro w hwt e hv
  by_cases hin : v ≤ w ∧ w < v + m
  · -- the walk found nothing valid there, and the unmap leaves nothing
    exact ⟨fun h => absurd ⟨e, h, hv⟩ (hgone w hin.1 hin.2).not_valid,
      fun h => absurd ⟨e, h, hv⟩ (hw.wrote w hin.1 hin.2).1⟩
  · have hx₁ : x₁.leaf 2 t w = some e ↔ x.leaf 2 t w = some e := by
      rcases hw.rest w hwt (by omega) with h1 | ⟨h1, h2⟩
      · rw [h1]
      · rw [h1, h2]
        constructor
        · intro h
          cases h
          exact absurd hv not_pteValid_zero
        · intro h
          cases h
    rw [← hx₁]
    rcases herased w hwt with h1 | ⟨h1, h2⟩
    · rw [h1]
    · have hg : Gone (x₁.leaf 2 t w) := h2.resolve_right hin
      exact ⟨fun h => absurd ⟨e, h, hv⟩ h1.not_valid,
        fun h => absurd ⟨e, h, hv⟩ hg.not_valid⟩

/-- What `__arch_hw_mmap` does: it enters the mapping up to its end or the end of the
table, or it fails and every valid entry is as before. -/
theorem hwMmap_spec (hinv : TableInv K x 2 t 0) (hKv : ∀ w, K w → x.ValidAt 2 t w)
    (hva : va % pageSize = 0) (hpa : pa % pageSize = 0) (hpa' : pa < 2 ^ 64)
    (hsize : size % pageSize = 0) (hneg : 0 ≤ toInt32 (size / pageSize)) (prot : ℕ) :
    ∃ ret x', x.hwMmap t va pa prot size = some (ret, x') ∧ TableStep K x x' 2 t 0 ∧
    ((ret = 0 ∧ ∃ m, Walked K prot x x' 2 t 0 (position 2 va) pa m ∧
        ((m : ℤ) = toInt32 (size / pageSize) ∨ position 2 va + m = tableSpan) ∧
        (0 < toInt32 (size / pageSize) → (m : ℤ) ≤ toInt32 (size / pageSize)) ∧
        (size ≠ 0 → 1 ≤ m)) ∨
      (ret ≠ 0 ∧ SameTrans x x' t ∧ ∃ w < tableSpan,
        InRange (position 2 va) (toInt32 (size / pageSize)) w ∧
        (ret = -enomem ∧ x.leaf 2 t w = none ∧ x.Exhausts K t ∨
          ret = -eexist ∧ x.ValidAt 2 t w))) := by
  have hspan : tableSpan = 2 ^ 27 := by norm_num [tableSpan]
  have hlt : position 2 va < tableSpan := position_lt 2 va
  unfold hwMmap
  rw [if_pos ⟨hva, hpa, hsize⟩]
  by_cases h0 : size = 0
  · rw [if_pos h0]
    refine ⟨0, x, rfl, .refl hinv, .inl ⟨rfl, 0, .refl hinv hlt.le, .inl ?_, fun h => h.le,
      fun h => absurd h0 h⟩⟩
    rw [h0]
    rfl
  · rw [if_neg h0, if_pos hneg]
    generalize toInt32 (size / pageSize) = n at *
    obtain ⟨ret, pages', x₁, m, heq, hw, hr⟩ := walk_spec K prot 2 le_rfl t x va pa n 0 hpa' hinv
    rw [heq]
    dsimp only
    by_cases hret : ret = 0
    · rw [if_neg (not_not.2 hret)]
      obtain ⟨h1, h2⟩ := hr.done hret
      refine ⟨0, x₁, rfl, hw.step, .inl ⟨rfl, m, hw, ?_, fun h => (hr.budget h).1,
        fun _ => h2 hlt⟩⟩
      have := hr.left
      exact h1.imp (fun h => by omega) id
    · rw [if_pos hret]
      obtain ⟨hend, hwhy⟩ := hr.failed hret
      change position 2 va + m < tableSpan at hend
      have hback : (((n - pages') * pageSize) % 2 ^ 64).toNat = m * pageSize := by
        rw [hr.left]
        simp only [pageSize, pageOffset]
        omega
      obtain ⟨x₂, heq₂, hstep, herased, hgone⟩ := hwUnmap_spec (n := m) hw.step.inv hva hend.le
        fun w h1 h2 hk => (hw.wrote w h1 h2).1 (hKv w hk)
      rw [hback, heq₂]
      refine ⟨ret, x₂, rfl, hw.step.trans hstep, .inr ⟨hret, ?_, ?_⟩⟩
      · refine sameTrans_of_undone hw herased (hgone fun u h1 h2 => ?_)
        rw [(hw.wrote u h1 h2).2]
        exact Option.some_ne_none _
      · refine ⟨position 2 va + m, hend, ⟨Nat.le_add_right _ _, fun h => ?_⟩, ?_⟩
        · have := (hr.budget h).2 hret
          omega
        · have hrest := hw.rest _ hend (.inr le_rfl)
          rcases hwhy with ⟨h1, e, he, hv⟩ | ⟨h1, he, hout⟩
          · refine .inr ⟨h1, e, ?_, hv⟩
            rcases hrest with h2 | ⟨-, h2⟩
            · rw [← h2, he]
            · rw [h2] at he
              cases he
              exact absurd hv not_pteValid_zero
          · refine .inl ⟨h1, ?_, x₁, hw.step, hout⟩
            rcases hrest with h2 | ⟨h2, -⟩
            · rw [← h2, he]
            · exact h2

end Memory

/-! ### Runs on one page table -/

/-- A call of `hw_mmap` or `hw_unmap`. -/
inductive HwCall
  | mmap (va pa prot size : ℕ)
  | unmap (va size : ℕ)

namespace HwCall

/-- The arguments are page-aligned, and the range lies inside `[0, 2 ^ 39)`. -/
def InSpan : HwCall → Prop
  | mmap va pa _ size => va % pageSize = 0 ∧ size % pageSize = 0 ∧ va + size ≤ 2 ^ 39 ∧
      pa % pageSize = 0 ∧ pa < 2 ^ 64
  | unmap va size => va % pageSize = 0 ∧ size % pageSize = 0 ∧ va + size ≤ 2 ^ 39

/-- The return value of the call and the memory after it. -/
def exec (root : ℕ) (x : Memory A) : HwCall → Option (ℤ × Memory A)
  | mmap va pa prot size => x.hwMmap root va pa prot size
  | unmap va size => (x.hwUnmap root va size).map (0, ·)

end HwCall

/-- A page table and the memory around it. -/
structure TableRun (A : PageAllocator L.toLayout) where
  root : ℕ
  mem : Memory A

/-- The runs of calls on a page table that was one page from `bk_alloc_zero`. -/
def hwRuns (A : PageAllocator L.toLayout) : Machine.System (TableRun A) HwCall where
  init s := ∃ x : Memory A, x.bkpAllocZero 0 = (some s.root, s.mem)
  step s call s' := call.InSpan ∧ s'.root = s.root ∧
    ∃ ret, call.exec s.root s.mem = some (ret, s'.mem)

/-- The tables form a tree, and each is a block of order 0 that is handed out. -/
structure TableRun.WellFormed (s : TableRun A) : Prop where
  tree : IsTree (sv39Format L) s.mem.words 2 s.root
  block : ∀ p ∈ s.mem.tables 2 s.root, s.mem.blocks p = some 0

namespace TableRun

open Memory

/-- No position is pinned. -/
def Inv (s : TableRun A) : Prop :=
  TableInv (fun _ => False) s.mem 2 s.root 0 ∧ s.mem.blocks s.root = some 0

theorem Inv.wellFormed {s : TableRun A} (h : s.Inv) : s.WellFormed := by
  refine ⟨h.1.tree, fun p hp => ?_⟩
  rcases h.1.below.of_mem hp with rfl | ⟨e, c, -, ht | ⟨_, _, hw, _⟩⟩
  · exact h.2
  · exact ht.block
  · exact absurd hw id

theorem inv_init {s : TableRun A} (h : (hwRuns A).init s) : s.Inv := by
  obtain ⟨x, hx⟩ := h
  obtain ⟨-, hz⟩ := bkpAllocZero_some hx
  have hb : s.mem.blocks s.root = some 0 := hz.block
  have hclear : ∀ j < 512, s.mem.words s.root j = (sv39Format L).empty := fun j _ => hz.clear j
  refine ⟨⟨isTree_of_empty hclear, below_of_empty hclear, fun p hp => ?_⟩, hb⟩
  rw [Memory.tables, tables_of_empty hclear, Finset.mem_singleton] at hp
  rw [hp]
  exact block_notMem_freePages hb

/-- A range inside the address space is one of positions. -/
theorem position_of_inSpan {va size : ℕ} (ha : size % pageSize = 0) (h : va + size ≤ 2 ^ 39) :
    position 2 va + size / pageSize ≤ tableSpan := by
  have hlt : position 2 va < tableSpan := position_lt 2 va
  rcases Nat.eq_zero_or_pos size with rfl | hpos
  · rw [Nat.zero_div]
    exact hlt.le
  · have hspan : tableSpan = 2 ^ 27 := by norm_num [tableSpan]
    have hp : position 2 va = va / pageSize := by
      refine Nat.mod_eq_of_lt ?_
      rw [show 512 ^ (2 + 1) = 2 ^ 27 by norm_num]
      simp only [pageSize, pageOffset] at *
      omega
    rw [hp]
    simp only [pageSize, pageOffset] at *
    omega

/-- What a call does: no `ASSERT` fails and only tables of this page table are taken from
the free pages or given back. -/
theorem exec_spec {s : TableRun A} (h : s.Inv) {call : HwCall} (hc : call.InSpan) :
    ∃ ret x', call.exec s.root s.mem = some (ret, x') ∧
      TableStep (fun _ => False) s.mem x' 2 s.root 0 := by
  cases call with
  | mmap va pa prot size =>
    obtain ⟨hva, hsize, hspan, hpa, hpa'⟩ := hc
    have hint : 0 ≤ toInt32 (size / pageSize) := by
      rw [toInt32_of_lt]
      · exact Int.natCast_nonneg _
      · simp only [pageSize, pageOffset]
        omega
    obtain ⟨ret, x', heq, hstep, -⟩ :=
      hwMmap_spec h.1 (fun _ => False.elim) hva hpa hpa' hsize hint prot
    exact ⟨ret, x', heq, hstep⟩
  | unmap va size =>
    obtain ⟨hva, hsize, hspan⟩ := hc
    obtain ⟨x', heq, hstep, -⟩ := hwUnmap_spec h.1 hva (position_of_inSpan hsize hspan)
      fun _ _ _ => id
    rw [Nat.div_mul_cancel (Nat.dvd_of_mod_eq_zero hsize)] at heq
    exact ⟨0, x', congrArg (Option.map (0, ·)) heq, hstep⟩

theorem inv_reachable {s : TableRun A} (h : (hwRuns A).Reachable s) : s.Inv := by
  refine h.invariant (fun _ => inv_init) fun s call s' _ hinv hs => ?_
  obtain ⟨hc, hroot, ret, heq⟩ := hs
  obtain ⟨ret', x', heq', hstep⟩ := exec_spec hinv hc
  rw [heq'] at heq
  cases heq
  rw [Inv, hroot]
  exact ⟨hstep.inv, hstep.root.1.trans hinv.2⟩

end TableRun

/-- In every run the page table stays well formed, and at every call that is next no `ASSERT`
fails and the free pages and the tables together stay the same pages. -/
theorem page_table (s : TableRun A) (h : (hwRuns A).Reachable s) :
    s.WellFormed ∧ ∀ call : HwCall, call.InSpan →
      ∃ ret x', call.exec s.root s.mem = some (ret, x') ∧
        (∀ p, p ∈ x'.freePages ∨ p ∈ x'.tables 2 s.root ↔
          p ∈ s.mem.freePages ∨ p ∈ s.mem.tables 2 s.root) := by
  have hinv := TableRun.inv_reachable h
  refine ⟨hinv.wellFormed, fun call hc => ?_⟩
  obtain ⟨ret, x', heq, hstep⟩ := TableRun.exec_spec hinv hc
  exact ⟨ret, x', heq, hstep.conserve⟩

theorem ofPages_end {n k : ℕ} (hn : n < 2 ^ 26) (hk : 39 ≤ k) :
    2 ^ 31 + n * pageSize ≤ 2 ^ k := by
  have h39 : 2 ^ 31 + n * pageSize ≤ 2 ^ 39 := by
    simp only [pageSize, pageOffset]
    omega
  exact h39.trans (Nat.pow_le_pow_right Nat.two_pos hk)

/-- A machine that Sv39 can map. -/
def VmLayout.ofPages (m n k : ℕ) (hm : 1 ≤ m ∧ m ≤ 31) (hn : n < 2 ^ 26) (hk : 0 < k ∧ k < n) :
    VmLayout where
  toLayout := Layout.ofPages m n hm (hn.trans (by norm_num))
  seperate := k
  seperate_pos := hk.1
  seperate_lt := hk.2
  vaStart_pos := Nat.two_pow_pos 31
  paEnd_le := ofPages_end hn (by norm_num)
  vaEnd_le := ofPages_end hn le_rfl

/-- Eight pages: the root is one of them, and two pages are mapped around a gigabyte. -/
theorem page_table_eight_pages :
    let L := VmLayout.ofPages 4 8 1 (by decide) (by decide) (by decide)
    let A := buddyAllocator L.toLayout (FreeRange.all L.toLayout) L.vaStart_pos
    ∃ (s : TableRun A) (ret : ℤ) (x' : Memory A), (hwRuns A).Reachable s ∧ s.WellFormed ∧
      (HwCall.unmap (2 ^ 30 - 4096) 8192).exec s.root s.mem = some (ret, x') := by
  intro L
  -- the run is the same for every allocator that has a page left
  have hrun : ∀ A : PageAllocator L.toLayout, (∃ b₀ p b, A.alloc b₀ 0 = (some p, b)) →
      ∃ (s : TableRun A) (ret : ℤ) (x' : Memory A), (hwRuns A).Reachable s ∧ s.WellFormed ∧
        (HwCall.unmap (2 ^ 30 - 4096) 8192).exec s.root s.mem = some (ret, x') := by
    intro A ⟨b₀, p, b, halloc⟩
    obtain ⟨x, hx⟩ := Memory.bkpAllocZero_of_alloc
      (x := (⟨b₀, fun _ => .handed 0, fun _ _ => 0⟩ : Memory A)) halloc
    have h0 : (hwRuns A).Reachable ⟨p, x⟩ := .of_init ⟨_, hx⟩
    have hmap : (HwCall.mmap (2 ^ 30 - 4096) 0 3 8192).InSpan := by
      refine ⟨?_, ?_, ?_, ?_, ?_⟩ <;> decide
    obtain ⟨ret, y, hy, -⟩ := TableRun.exec_spec (TableRun.inv_reachable h0) hmap
    have h1 : (hwRuns A).Reachable ⟨p, y⟩ := h0.step ⟨hmap, rfl, ret, hy⟩
    obtain ⟨hwf, hcalls⟩ := page_table _ h1
    have hunmap : (HwCall.unmap (2 ^ 30 - 4096) 8192).InSpan := by
      refine ⟨?_, ?_, ?_⟩ <;> decide
    obtain ⟨ret', z, hz, -⟩ := hcalls _ hunmap
    exact ⟨_, ret', z, h1, hwf, hz⟩
  exact hrun _ ⟨_, bootState_succeeds (R := FreeRange.all L.toLayout) (k := 0) (j := 3)
    L.vaStart_pos le_rfl (by decide) (by decide) (by decide)⟩

end AcoOs
